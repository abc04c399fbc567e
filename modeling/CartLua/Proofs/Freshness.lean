import CartLua.Proofs.Laying
/-!
# Positions that lie ahead

A session that has include lines reads several documents, and may leave one in the middle and come back to it. A position
is ahead if it can still be passed: it stands in a document that is not opened yet, or behind the start of the current
token of one that is open. No act puts a position ahead again, and a token that is passed is ahead before and no longer
behind. So what is read in different parts of a run stands at different places, whatever documents the run goes through.
-/

namespace CartLua

open List

/-! ### Tokens and windows -/

/-- A token that takes up room in the text unless it marks an end, and has a name as its text if it is one. -/
structure Token.Sound (t : Token) : Prop where
  solid : t.isSolid = true → t.span.start.index < t.span.stop.index
  name : t.isIdentifier = true → ∀ ch ∈ t.text.toList, Lexeme.continuesName ch = true

theorem Token.sound_newline (p : Position) : (Token.newline p).Sound := ⟨nofun, nofun⟩

theorem Token.Sound.no_point {t : Token} (h : t.Sound) (hname : t.isIdentifier = true) : '.' ∉ t.text.toList := by
  intro hmem
  have hpoint := h.name hname '.' hmem
  exact absurd hpoint (by decide)

theorem Token.isSolid_of_isIdentifier {t : Token} (h : t.isIdentifier = true) : t.isSolid = true := by
  simp [isSolid, isEof, isNewline, kind_of_isIdentifier h]

namespace Cursor

variable {mode : Encoding} {c next : Cursor} {t : Token}

theorem sound_of_scan (h : c.scan mode = .token t next) : t.Sound := by
  obtain ⟨n, ch, rest, -, hrest, lexeme, text, hread, houtcome, htext, hnext, hspan⟩ := scan_token h
  have hreading := Lexeme.reading_read hread houtcome
  constructor
  · intro _
    rw [hspan]
    simp only [spanTo, hnext, skip_index, hrest, length_cons]
    omega
  · intro hname ch hch
    rw [htext, String.toList_ofList] at hch
    unfold Token.isIdentifier at hname
    generalize t.kind = kind at hreading hname
    cases hreading with
    | word _ _ hchars => exact hchars ch hch
    | string | number | directive | vararg | symbol => cases hname

theorem sound_nextToken (mode : Encoding) (c : Cursor) : (c.nextToken mode).1.Sound := by
  induction c using Cursor.scan_induction mode with
  | done c eof next h =>
    obtain ⟨-, rfl, -⟩ := scan_done h
    rw [nextToken_of_done h]
    exact ⟨nofun, nofun⟩
  | token c t next h _ =>
    rw [nextToken_of_token h]
    exact sound_of_scan h
  | fault c d next h ih =>
    rw [nextToken_of_fault h]
    exact ih

end Cursor

namespace Window

variable {w : Window}

/-- The tokens of the window are sound and stand one behind the other. Nothing is said of the token passed last, which may
belong to another document. -/
structure Sorted (w : Window) : Prop where
  ordered : ∃ previous, { w with previous }.Ordered
  token : w.token.Sound
  lookahead : w.lookahead.Sound

namespace Sorted

theorem passed (h : w.Sorted) (previous : Token) : { w with previous }.Sorted := ⟨h.ordered, h.token, h.lookahead⟩

theorem stop_le (h : w.Sorted) : w.token.span.stop.index ≤ w.lookahead.span.start.index := by
  obtain ⟨previous, hordered⟩ := h.ordered
  exact hordered.lookahead.2

theorem start_le (h : w.Sorted) : w.token.span.start.index ≤ w.token.span.stop.index := by
  obtain ⟨previous, hordered⟩ := h.ordered
  exact hordered.token.2

theorem next (h : w.Sorted) : w.next.2.Sorted := by
  obtain ⟨previous, hordered⟩ := h.ordered
  refine ⟨⟨w.next.2.previous, hordered.next⟩, ?_, ?_⟩
  · rw [next_token]
    split
    · exact Token.sound_newline _
    · exact h.lookahead
  · unfold Window.next
    split
    · exact h.lookahead
    · rw [fetch_eq]
      exact Cursor.sound_nextToken _ _

theorem setNewlines (h : w.Sorted) (shown : Bool) : (w.setNewlines shown).2.Sorted := by
  obtain ⟨previous, hordered⟩ := h.ordered
  have hmoved := hordered.setNewlines shown
  obtain hset | ⟨hnewline, hshown, hset⟩ := w.setNewlines_cases shown
  · rw [hset]
    exact ⟨⟨previous, hordered.previous, hordered.token, hordered.lookahead, hordered.ahead, hordered.cursor⟩, h.token,
      h.lookahead⟩
  · rw [hset]
    refine ⟨⟨previous, ?_⟩, ?_, ?_⟩
    · rw [fetch_eq]
      have hfetch := Ordered.fetch (w := { w with previous, newlines := shown, token := w.lookahead })
        (hordered.previous.trans (hordered.token.trans hordered.lookahead)) hordered.ahead hordered.cursor
      rwa [fetch_eq] at hfetch
    · rw [fetch_token]
      exact h.lookahead
    · rw [fetch_eq]
      exact Cursor.sound_nextToken _ _

end Sorted

theorem Sorted.start_le_next (h : w.Sorted) : w.token.span.stop.index ≤ w.next.2.token.span.start.index := by
  rw [next_token]
  split
  · exact le_rfl
  · exact h.stop_le

theorem Sorted.start_le_setNewlines (h : w.Sorted) (shown : Bool) :
    w.token.span.start.index ≤ (w.setNewlines shown).2.token.span.start.index := by
  obtain hset | ⟨-, -, hset⟩ := w.setNewlines_cases shown
  · rw [hset]
  · rw [hset, fetch_token]
    exact h.start_le.trans h.stop_le

theorem sorted_start (mode : Encoding) (text : String) (file : FileId) : (ofText mode text file).start.2.Sorted := by
  have hfirst : (ofText mode text file).fetch.2.Sorted := by
    refine ⟨⟨(ofText mode text file).fetch.2.previous, ?_⟩, ?_, ?_⟩
    · have hfile : (ofText mode text file).cursor.position.file = file := Cartridge.code_file text.toList file
      exact Ordered.fetch (w := ofText mode text file) (.refl _) (.refl _) ⟨hfile.symm, Nat.zero_le _⟩
    · rw [fetch_token]
      exact ⟨nofun, nofun⟩
    · rw [fetch_eq]
      exact Cursor.sound_nextToken _ _
  exact hfirst.next

end Window

namespace Session

variable {c : Settings} {s t u : Session} {p : Position} {ps qs : List Position}

/-! ### What an act does to windows -/

theorem mem_windows_resume {w v : Window} (hv : v ∈ (s.resume w).windows) :
    ∃ v' ∈ w :: s.suspended.map (·.window), ∃ previous, v = { v' with previous } :=
  mem_unwind hv

theorem Act.mem_windows (h : Act c s t) {v : Window} (hv : v ∈ t.windows) :
    (∃ w ∈ s.windows, ∃ previous, v = { w with previous } ∨ v = { w.next.2 with previous } ∨
      ∃ shown, v = { (w.setNewlines shown).2 with previous }) ∨
    ∃ contents previous, v = { (Window.ofText c.encoding contents s.files.size).start.2 with previous } := by
  have hcurrent : s.window ∈ s.windows := mem_cons_self ..
  have hbelow : ∀ {w}, w ∈ s.suspended.map (·.window) → w ∈ s.windows := fun hw => mem_cons_of_mem _ hw
  obtain ⟨hwindow, hsuspended, -⟩ | rfl | ⟨shown, rfl⟩ | ⟨-, rfl⟩ := h.cases_window
  · rw [windows, hwindow, hsuspended] at hv
    exact .inl ⟨v, hv, v.previous, .inl rfl⟩
  · obtain ⟨w, hw, previous, rfl⟩ := mem_windows_resume hv
    rcases mem_cons.mp hw with rfl | hw
    · exact .inl ⟨s.window, hcurrent, previous, .inr (.inl rfl)⟩
    · exact .inl ⟨w, hbelow hw, previous, .inl rfl⟩
  · obtain ⟨w, hw, previous, rfl⟩ := mem_windows_resume hv
    rcases mem_cons.mp hw with rfl | hw
    · exact .inl ⟨s.window, hcurrent, previous, .inr (.inr ⟨shown, rfl⟩)⟩
    · exact .inl ⟨w, hbelow hw, previous, .inl rfl⟩
  · rw [passInclude_eq] at hv
    obtain ⟨w, hw, previous, rfl⟩ := mem_windows_resume hv
    have hmoved : w ∈ s.window.next.2 :: s.suspended.map (·.window) ∨
        ∃ contents, w = (Window.ofText c.encoding contents s.files.size).start.2 := by
      obtain ⟨hwindow, hsuspended, -⟩ | ⟨path, contents, -, -, hwindow, hsuspended, -⟩ :=
        openInclude_cases c s.behindLine s.window.token.text s.window.token.span
      · rw [hwindow, hsuspended] at hw
        exact .inl hw
      · rw [hwindow, hsuspended] at hw
        rcases mem_cons.mp hw with rfl | hw
        · exact .inr ⟨contents, rfl⟩
        · exact .inl hw
    rcases hmoved with hw | ⟨contents, rfl⟩
    · rcases mem_cons.mp hw with rfl | hw
      · exact .inl ⟨s.window, hcurrent, previous, .inr (.inl rfl)⟩
      · exact .inl ⟨w, hbelow hw, previous, .inl rfl⟩
    · exact .inr ⟨contents, previous, rfl⟩

/-! ### Regular sessions -/

/-- The windows of the session are over different documents, and each shows sound tokens in their order. -/
structure Regular (c : Settings) (s : Session) : Prop where
  orderly : s.Orderly c
  sorted : ∀ w ∈ s.windows, w.Sorted

theorem Regular.window (h : s.Regular c) : s.window.Sorted := h.sorted _ (mem_cons_self ..)

theorem Act.regular (h : Act c s t) (hs : s.Regular c) : t.Regular c := by
  refine ⟨h.orderly hs.orderly, fun v hv => ?_⟩
  obtain ⟨w, hw, previous, rfl | rfl | ⟨shown, rfl⟩⟩ | ⟨contents, previous, rfl⟩ := h.mem_windows hv
  · exact (hs.sorted w hw).passed previous
  · exact (hs.sorted w hw).next.passed previous
  · exact ((hs.sorted w hw).setNewlines shown).passed previous
  · exact (Window.sorted_start _ _ _).passed previous

theorem Reaches.regular (h : Reaches c s t) (hs : s.Regular c) : t.Regular c :=
  h.keeps Act.regular hs

/-! ### Ahead -/

def Ahead (s : Session) (p : Position) : Prop :=
  s.files.size ≤ p.file ∨ ∃ w ∈ s.windows, w.file = p.file ∧ w.token.span.start.index < p.index

theorem Act.ahead (h : Act c s t) (hs : s.Regular c) (ht : t.Ahead p) : s.Ahead p := by
  rcases ht with hsize | ⟨v, hv, hfile, hlt⟩
  · exact .inl (h.files_prefix.length_le.trans hsize)
  · obtain ⟨w, hw, previous, hmoved⟩ | ⟨contents, previous, rfl⟩ := h.mem_windows hv
    · have hsorted := hs.sorted w hw
      refine .inr ⟨w, hw, ?_⟩
      rcases hmoved with rfl | rfl | ⟨shown, rfl⟩
      · exact ⟨hfile, hlt⟩
      · have hle := hsorted.start_le.trans hsorted.start_le_next
        exact ⟨(Window.next_file w).symm.trans hfile, hle.trans_lt hlt⟩
      · have hle := hsorted.start_le_setNewlines shown
        exact ⟨(Window.setNewlines_file w shown).symm.trans hfile, hle.trans_lt hlt⟩
    · left
      exact ((start_ofText_file c.encoding contents s.files.size).symm.trans hfile).le

theorem Reaches.ahead (h : Reaches c s t) (hs : s.Regular c) (ht : t.Ahead p) : s.Ahead p := by
  induction h with
  | refl => exact ht
  | act before last ih => exact ih (last.ahead (before.regular hs) ht)

theorem Orderly.file_ne (h : s.Orderly c) {w : Window} (hw : w ∈ s.suspended.map (·.window)) : w.file ≠ s.window.file := by
  intro heq
  have hdistinct := h.distinct
  have hopened : s.window.file < s.files.size := h.opened s.window (mem_cons_self ..)
  have hsome : s.files[s.window.file]? = some s.files[s.window.file] := Array.getElem?_eq_getElem hopened
  rw [openFiles, windows, filterMap_cons, hsome] at hdistinct
  refine (nodup_cons.mp hdistinct).1 (mem_filterMap.mpr ⟨w, hw, ?_⟩)
  rw [heq, hsome]

theorem ahead_advance {a : Unit} (hs : s.Regular c) (hsolid : s.window.token.isSolid = true)
    (h : Parse.advance.run c s = .ok a t) :
    s.Ahead s.window.token.span.stop ∧ ¬t.Ahead s.window.token.span.stop := by
  have hcurrent : s.window ∈ s.windows := mem_cons_self ..
  have hfile : s.window.token.span.stop.file = s.window.file := hs.orderly.window.1.2
  constructor
  · exact .inr ⟨s.window, hcurrent, hfile.symm, hs.window.token.solid hsolid⟩
  · rw [Parse.run_advance] at h
    split at h
    · cases h
      rintro (hsize | ⟨v, hv, hsame, hlt⟩)
      · have hopened := hs.orderly.opened s.window hcurrent
        rw [hfile] at hsize
        exact absurd hopened (Nat.not_lt.mpr hsize)
      · obtain ⟨w, hw, previous, rfl⟩ := mem_windows_resume hv
        rcases mem_cons.mp hw with rfl | hw
        · exact absurd hlt (Nat.not_lt.mpr hs.window.start_le_next)
        · exact hs.orderly.file_ne hw (hsame.trans hfile)
    · cases h

/-! ### What a part of a run passes -/

/-- From `s` to `t` the run passes all these positions, which are different ones. -/
structure Fresh (s t : Session) (ps : List Position) : Prop where
  ahead : ∀ p ∈ ps, s.Ahead p
  passed : ∀ p ∈ ps, ¬t.Ahead p
  distinct : ps.Nodup

namespace Fresh

theorem nil (s t : Session) : Fresh s t [] := ⟨nofun, nofun, nodup_nil⟩

theorem mono {s' t' : Session} (h : Fresh s t ps) (hs : s'.Regular c) (hfirst : Reaches c s' s) (ht : t.Regular c)
    (hlast : Reaches c t t') : Fresh s' t' ps :=
  ⟨fun p hp => hfirst.ahead hs (h.ahead p hp), fun p hp hahead => h.passed p hp (hlast.ahead ht hahead), h.distinct⟩

theorem append (hs : s.Regular c) (hst : Reaches c s t) (htu : Reaches c t u) (hps : Fresh s t ps) (hqs : Fresh t u qs) :
    Fresh s u (ps ++ qs) := by
  have ht := hst.regular hs
  have hps' := hps.mono hs .refl ht htu
  have hqs' := hqs.mono hs hst (htu.regular ht) .refl
  refine ⟨?_, ?_, ?_⟩
  · intro p hp
    exact (mem_append.mp hp).elim (hps'.ahead p) (hqs'.ahead p)
  · intro p hp
    exact (mem_append.mp hp).elim (hps'.passed p) (hqs'.passed p)
  · refine hps.distinct.append hqs.distinct fun p hp hq => ?_
    exact hps.passed p hp (hqs.ahead p hq)

theorem perm (h : Fresh s t ps) (hperm : ps.Perm qs) : Fresh s t qs :=
  ⟨fun p hp => h.ahead p (hperm.mem_iff.mpr hp), fun p hp => h.passed p (hperm.mem_iff.mpr hp),
    hperm.nodup_iff.mp h.distinct⟩

theorem sublist (h : Fresh s t ps) (hsub : qs.Sublist ps) : Fresh s t qs :=
  ⟨fun p hp => h.ahead p (hsub.subset hp), fun p hp => h.passed p (hsub.subset hp), h.distinct.sublist hsub⟩

end Fresh

end Session

end CartLua
