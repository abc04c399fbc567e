import CartLua.Parse.Session
import CartLua.Proofs.Scan
import Mathlib.Data.List.Perm.Subperm
import Mathlib.Tactic
/-!
# What is left to read

A bound on the tokens and line ends that a session can still pass, those of documents that can still be included counted
in. No act makes it larger, and passing a token makes it smaller. A window has two steps left for every character in
front of it, which also pays for the line ends; a step in a document weighs more than all steps of a document entered
from there, so that an include line pays for the document it enters.
-/

namespace CartLua

open List Window

/-! ### Windows -/

/-- The steps that a token allows as the current one: it can be passed, and a line end can be shown behind it. -/
def Token.steps (t : Token) : Nat := if t.isEof then 0 else if t.isNewline then 1 else 2

/-- The steps that a token allows before it is the current one. -/
def Token.stepsAhead (t : Token) : Nat := if t.isEof then 0 else 2

theorem Token.steps_le_stepsAhead (t : Token) : t.steps ≤ t.stepsAhead := by
  unfold steps stepsAhead
  split_ifs <;> omega

theorem Token.stepsAhead_le (t : Token) : t.stepsAhead ≤ 2 := by
  unfold stepsAhead
  split_ifs <;> omega

@[simp] theorem Token.stepsAhead_eof (p : Position) : (Token.eof p).stepsAhead = 0 := rfl

@[simp] theorem Token.steps_newline (p : Position) : (Token.newline p).steps = 1 := rfl

theorem Token.steps_pos {t : Token} (h : t.isEof = false) : 0 < t.steps := by
  unfold steps
  split_ifs <;> simp_all

theorem Cursor.nextToken_steps (mode : Encoding) (c : Cursor) :
    2 * (c.nextToken mode).2.rest.length + (c.nextToken mode).1.stepsAhead ≤ 2 * c.rest.length := by
  induction c using Cursor.scan_induction mode with
  | done c eof next h =>
    obtain ⟨hrest, rfl, -⟩ := Cursor.scan_done h
    rw [nextToken_of_done h]
    simp [hrest]
  | token c t next h _ =>
    rw [nextToken_of_token h]
    have hlt := length_lt_of_scan_token h
    have hle := t.stepsAhead_le
    dsimp only
    omega
  | fault c d next h =>
    rw [nextToken_of_fault h]
    have hlt := length_lt_of_scan_fault h
    omega

variable {w : Window}

namespace Window

/-- A bound on the tokens and line ends that the window can still pass. -/
def steps (w : Window) : Nat := 2 * w.cursor.rest.length + w.lookahead.stepsAhead + w.token.steps

@[simp] theorem fetch_token (w : Window) : w.fetch.2.token = w.token := by
  unfold fetch
  split <;> rfl

theorem fetch_steps (w : Window) :
    2 * w.fetch.2.cursor.rest.length + w.fetch.2.lookahead.stepsAhead ≤ 2 * w.cursor.rest.length := by
  unfold fetch
  split
  next eof next h =>
    obtain ⟨hrest, rfl, -⟩ := Cursor.scan_done h
    simp [hrest]
  next t next h =>
    have hlt := Cursor.length_lt_of_scan_token h
    have hle := t.stepsAhead_le
    dsimp only
    omega
  next d next h =>
    have hlt := Cursor.length_lt_of_scan_fault h
    have hle := next.nextToken_steps w.encoding
    dsimp only
    omega

theorem steps_of_atLineEnd (h : w.atLineEnd = true) : w.token.steps = 2 := by
  simp only [atLineEnd, Bool.and_eq_true, Bool.not_eq_true'] at h
  obtain ⟨⟨⟨-, hnewline⟩, heof⟩, -⟩ := h
  simp [Token.steps, hnewline, heof]

theorem next_steps (w : Window) : w.next.2.steps + min 1 w.token.steps ≤ w.steps := by
  unfold next
  split
  next hline =>
    have htwo := steps_of_atLineEnd hline
    simp only [steps, Token.steps_newline]
    omega
  next =>
    have hfetch := fetch_steps { w with previous := w.token, token := w.lookahead }
    have htoken := w.lookahead.steps_le_stepsAhead
    simp only [steps, fetch_token] at hfetch ⊢
    omega

theorem next_steps_le (w : Window) : w.next.2.steps ≤ w.steps := Nat.le_of_add_right_le w.next_steps

theorem next_steps_lt (h : w.token.isEof = false) : w.next.2.steps < w.steps := by
  have hnext := w.next_steps
  have hpositive := Token.steps_pos h
  omega

theorem setNewlines_cases (w : Window) (shown : Bool) :
    w.setNewlines shown = (none, { w with newlines := shown }) ∨
      (w.token.isNewline = true ∧ shown = false ∧
        w.setNewlines shown = fetch { w with newlines := shown, token := w.lookahead }) := by
  unfold setNewlines
  cases shown <;> cases h : w.token.isNewline <;> simp [h]

theorem setNewlines_steps (w : Window) (shown : Bool) :
    (w.setNewlines shown).2.steps < w.steps ∨
      (w.setNewlines shown).2.steps = w.steps ∧ (w.setNewlines shown).2.token = w.token := by
  obtain h | ⟨hnewline, -, h⟩ := w.setNewlines_cases shown
  · right
    rw [h]
    exact ⟨rfl, rfl⟩
  · left
    rw [h]
    have hfetch := fetch_steps { w with newlines := shown, token := w.lookahead }
    have htoken := w.lookahead.steps_le_stepsAhead
    have hone : w.token.steps = 1 := by
      have heof : w.token.isEof = false := by
        unfold Token.isNewline at hnewline
        unfold Token.isEof
        split <;> simp_all
      simp [Token.steps, hnewline, heof]
    simp only [steps, fetch_token] at hfetch ⊢
    omega

theorem start_steps_le (w : Window) : w.start.2.steps ≤ 2 * w.cursor.rest.length + w.token.steps := by
  unfold start
  have hnext := w.fetch.2.next_steps_le
  have hfetch := w.fetch_steps
  simp only [steps, fetch_token] at hnext hfetch ⊢
  omega

end Window

/-! ### A window stays over its document -/

def Token.IsIn (t : Token) (file : FileId) : Prop := t.span.start.file = file ∧ t.span.stop.file = file

theorem Cursor.nextToken_file (mode : Encoding) (c : Cursor) :
    (c.nextToken mode).2.position.file = c.position.file ∧ (c.nextToken mode).1.IsIn c.position.file := by
  induction c using Cursor.scan_induction mode with
  | done c eof next h =>
    obtain ⟨-, rfl, n, rfl⟩ := Cursor.scan_done h
    rw [nextToken_of_done h]
    exact ⟨skip_file _ _, skip_file _ _, skip_file _ _⟩
  | token c t next h _ =>
    obtain ⟨n, -, -, -, -, lexeme, -, -, -, -, rfl, hspan⟩ := Cursor.scan_token h
    rw [nextToken_of_token h, Token.IsIn, hspan]
    simp [spanTo]
  | fault c d next h ih =>
    obtain ⟨n, rfl⟩ := Cursor.scan_fault h
    rw [nextToken_of_fault h]
    simpa using ih

namespace Window

/-- The tokens of the window belong to its document. -/
def Coherent (w : Window) : Prop := w.token.IsIn w.file ∧ w.lookahead.IsIn w.file

theorem fetch_eq (w : Window) : w.fetch.2 =
    { w with
      lookahead := (w.cursor.nextToken w.encoding).1
      cursor := (w.cursor.nextToken w.encoding).2 } := by
  unfold fetch
  split
  next h => rw [Cursor.nextToken_of_done h]
  next h => rw [Cursor.nextToken_of_token h]
  next h => rw [Cursor.nextToken_of_fault h]

@[simp] theorem fetch_file (w : Window) : w.fetch.2.file = w.file := by
  rw [fetch_eq]
  exact (Cursor.nextToken_file w.encoding w.cursor).1

theorem fetch_coherent (h : w.token.IsIn w.file) : w.fetch.2.Coherent := by
  rw [Coherent, fetch_file, fetch_token]
  refine ⟨h, ?_⟩
  rw [fetch_eq]
  exact (Cursor.nextToken_file w.encoding w.cursor).2

@[simp] theorem next_file (w : Window) : w.next.2.file = w.file := by
  unfold next
  split
  · rfl
  · rw [fetch_file]
    rfl

theorem Coherent.next {w : Window} (h : w.Coherent) : w.next.2.Coherent := by
  unfold Window.next
  split
  · exact ⟨⟨h.1.2, h.1.2⟩, h.2⟩
  · exact fetch_coherent h.2

@[simp] theorem setNewlines_file (w : Window) (shown : Bool) : (w.setNewlines shown).2.file = w.file := by
  obtain h | ⟨-, -, h⟩ := w.setNewlines_cases shown
  · rw [h]
    rfl
  · rw [h, fetch_file]
    rfl

theorem Coherent.setNewlines {w : Window} (h : w.Coherent) (shown : Bool) : (w.setNewlines shown).2.Coherent := by
  obtain hset | ⟨-, -, hset⟩ := w.setNewlines_cases shown
  · rw [hset]
    exact h
  · rw [hset]
    exact fetch_coherent h.2

theorem start_file (w : Window) : w.start.2.file = w.file := by
  unfold start
  rw [next_file, fetch_file]

theorem start_coherent (h : w.token.IsIn w.file) : w.start.2.Coherent := by
  exact (fetch_coherent h).next

end Window

theorem Cartridge.code_file (text : List Char) (file : FileId) : (code text file).position.file = file := by
  unfold code
  dsimp only
  split
  · split <;> rfl
  · rfl

theorem Cartridge.length_lines (text : List Char) : (lines text).flatten.length = text.length := by
  induction text with
  | nil => rfl
  | cons c rest ih =>
    unfold lines
    split
    · simp [ih]
    · split
      next h => simp_all
      next line others h => simp_all

theorem Cartridge.length_code_le (text : List Char) (file : FileId) : (code text file).rest.length ≤ text.length := by
  unfold code
  split
  next =>
    dsimp only
    split
    · simp
    next mark behind h =>
      have hsub : (behind.takeWhile (!opensData ·)).Sublist (lines text) := by
        refine (takeWhile_sublist _).trans ((sublist_cons_self mark behind).trans ?_)
        rw [← h]
        exact drop_sublist _ _
      calc ((behind.takeWhile (!opensData ·)).flatten).length
          ≤ (lines text).flatten.length := hsub.flatten.length_le
        _ = text.length := length_lines text
  · exact le_rfl

/-! ### Sessions -/

/-- The steps of a stack of windows, innermost first. A step in a window weighs as much as `base` steps in one above it,
up to a stack of `levels` windows over the last one. -/
def weigh (base levels : Nat) : List Window → Nat
  | [] => 0
  | w :: below => w.steps * base ^ (levels - below.length) + weigh base levels below

namespace Session

variable {c : Settings} {s t : Session} {store : Store}

/-- A bound on the tokens and line ends that the session can still pass. -/
def remaining (c : Settings) (s : Session) : Nat := weigh (2 * c.store.longest + 1) c.store.documents.length s.windows

/-- The windows show tokens of their documents. These have numbers, they are different documents, and all but the root
are stored. -/
structure Orderly (c : Settings) (s : Session) : Prop where
  coherent : ∀ w ∈ s.windows, w.Coherent
  opened : ∀ w ∈ s.windows, w.file < s.files.size
  distinct : s.openFiles.Nodup
  stored : ∀ path ∈ s.openFiles.dropLast, path ∈ c.store.documents.map (·.1)

theorem length_openFiles (h : ∀ w ∈ s.windows, w.file < s.files.size) : s.openFiles.length = s.suspended.length + 1 := by
  have hall : ∀ ws : List Window, (∀ w ∈ ws, w.file < s.files.size) →
      (ws.filterMap (s.files[·.file]?)).length = ws.length := by
    intro ws hws
    induction ws with
    | nil => rfl
    | cons w ws ih =>
      have hw : w.file < s.files.size := hws w (by simp)
      simp [hw, ih fun v hv => hws v (by simp [hv])]
  rw [openFiles, hall _ h]
  simp [windows]

theorem Orderly.length_suspended_le (h : s.Orderly c) : s.suspended.length ≤ c.store.documents.length := by
  have hsub : s.openFiles.dropLast.Nodup := h.distinct.sublist (dropLast_sublist _)
  have hle := (hsub.subperm h.stored).length_le
  rw [length_dropLast, length_openFiles h.opened, length_map] at hle
  omega

/-! ### Leaving finished documents -/

theorem unwind_files (w : Window) (below : List Suspended) :
    ((unwind w below).1 :: (unwind w below).2.map (·.window)).map file <:+
      (w :: below.map (·.window)).map file := by
  induction below generalizing w with
  | nil => exact suffix_rfl
  | cons b rest ih =>
    unfold unwind
    split
    · refine (ih _).trans ?_
      exact suffix_cons _ _
    · exact suffix_rfl

theorem unwind_suffix (w : Window) (below : List Suspended) : (unwind w below).2 <:+ below := by
  induction below generalizing w with
  | nil => exact suffix_rfl
  | cons b rest ih =>
    unfold unwind
    split
    · exact (ih _).trans (suffix_cons b rest)
    · exact suffix_rfl

theorem mem_unwind {v : Window} {below : List Suspended}
    (hv : v ∈ (unwind w below).1 :: (unwind w below).2.map (·.window)) :
    ∃ v' ∈ w :: below.map (·.window), ∃ previous, v = { v' with previous } := by
  induction below generalizing w with
  | nil => exact ⟨v, hv, v.previous, rfl⟩
  | cons b rest ih =>
    unfold unwind at hv
    split at hv
    · obtain ⟨v', hv', previous, rfl⟩ := ih hv
      rcases mem_cons.mp hv' with rfl | hv'
      · exact ⟨b.window, by simp, previous, rfl⟩
      · exact ⟨v', by simp [hv'], previous, rfl⟩
    · exact ⟨v, hv, v.previous, rfl⟩

theorem unwind_coherent {below : List Suspended} (h : ∀ v ∈ w :: below.map (·.window), v.Coherent) :
    ∀ v ∈ (unwind w below).1 :: (unwind w below).2.map (·.window), v.Coherent := by
  intro v hv
  obtain ⟨v', hv', previous, rfl⟩ := mem_unwind hv
  exact h v' hv'

theorem weigh_unwind_le (base levels : Nat) (w : Window) (below : List Suspended) :
    weigh base levels ((unwind w below).1 :: (unwind w below).2.map (·.window)) ≤
      weigh base levels (w :: below.map (·.window)) := by
  induction below generalizing w with
  | nil => exact le_rfl
  | cons b rest ih =>
    unfold unwind
    split
    · refine (ih _).trans ?_
      exact Nat.le_add_left _ _
    · exact le_rfl

theorem windows_resume (s : Session) (w : Window) :
    (s.resume w).windows = (unwind w s.suspended).1 :: (unwind w s.suspended).2.map (·.window) := rfl

theorem remaining_resume_le (h : w.steps ≤ s.window.steps) :
    (s.resume w).remaining c ≤ s.remaining c := by
  refine (weigh_unwind_le _ _ w s.suspended).trans ?_
  exact Nat.add_le_add_right (Nat.mul_le_mul_right _ h) _

theorem remaining_resume_lt (h : w.steps < s.window.steps) :
    (s.resume w).remaining c < s.remaining c := by
  refine (weigh_unwind_le _ _ w s.suspended).trans_lt ?_
  exact Nat.add_lt_add_right (Nat.mul_lt_mul_of_pos_right h (Nat.pos_of_ne_zero (by positivity))) _

theorem Orderly.of_files (h : s.Orderly c) (hfiles : t.files = s.files) (hcoherent : ∀ w ∈ t.windows, w.Coherent)
    (hwindows : t.windows.map file <:+ s.windows.map file) : t.Orderly c := by
  have hopen : t.openFiles <:+ s.openFiles := by
    have hmap := hwindows.filterMap (s.files[·]?)
    rw [filterMap_map, filterMap_map] at hmap
    rw [openFiles, openFiles, hfiles]
    exact hmap
  refine ⟨hcoherent, ?_, h.distinct.sublist hopen.sublist, ?_⟩
  · intro w hw
    have hmem := hwindows.subset (mem_map_of_mem hw)
    obtain ⟨v, hv, hfile⟩ := mem_map.mp hmem
    rw [hfiles, ← hfile]
    exact h.opened v hv
  · intro path hpath
    obtain ⟨above, habove⟩ := hopen
    have hne : t.openFiles ≠ [] := by
      rintro hnil
      rw [hnil] at hpath
      exact absurd hpath (by simp)
    refine h.stored path ?_
    rw [← habove, dropLast_append_of_ne_nil hne]
    exact mem_append_right _ hpath

theorem Orderly.resume (h : s.Orderly c) {w : Window} (hcoherent : w.Coherent) (hw : w.file = s.window.file) :
    (s.resume w).Orderly c := by
  refine h.of_files rfl ?_ ?_
  · rw [windows_resume]
    refine unwind_coherent fun v hv => ?_
    rcases mem_cons.mp hv with rfl | hv
    · exact hcoherent
    · exact h.coherent v (mem_cons_of_mem _ hv)
  · rw [windows_resume]
    refine (unwind_files w s.suspended).trans ?_
    simp [windows, hw]

theorem Orderly.window (h : s.Orderly c) : s.window.Coherent := h.coherent s.window (mem_cons_self ..)

/-! ### Entering documents -/

theorem length_le_longest {path contents : String} (h : (path, contents) ∈ store.documents) :
    contents.length ≤ store.longest := by
  unfold Store.longest
  generalize store.documents = documents at h
  induction documents with
  | nil => exact absurd h (by simp)
  | cons document rest ih =>
    rcases mem_cons.mp h with rfl | hrest
    · exact le_max_left _ _
    · exact (ih hrest).trans (le_max_right _ _)

theorem mem_documents_of_openInclude {path target contents : String} (h : store.openInclude path target = .ok contents) :
    (path, contents) ∈ store.documents := by
  unfold Store.openInclude Store.load? at h
  split_ifs at h
  split at h
  · exact absurd h (by simp)
  · exact absurd h (by simp)
  next found hload =>
    split at hload
    · exact absurd hload (by simp)
    · obtain ⟨text, hlookup, htext⟩ := Option.map_eq_some_iff.mp hload
      cases htext
      cases h
      obtain ⟨before, behind, hsplit, -⟩ := lookup_eq_some_iff.mp hlookup
      rw [hsplit]
      exact mem_append_right _ (mem_cons_self ..)

theorem start_ofText_steps_le (mode : Encoding) (contents : String) (file : FileId) :
    (ofText mode contents file).start.2.steps ≤ 2 * contents.length := by
  refine (start_steps_le _).trans ?_
  have hcode := Cartridge.length_code_le contents.toList file
  simp only [ofText, String.length_toList] at hcode ⊢
  have heof : (Token.eof { file := file }).steps = 0 := rfl
  omega

theorem start_ofText_file (mode : Encoding) (contents : String) (file : FileId) :
    (ofText mode contents file).start.2.file = file := by
  rw [start_file]
  exact Cartridge.code_file contents.toList file

theorem start_ofText_coherent (mode : Encoding) (contents : String) (file : FileId) :
    (ofText mode contents file).start.2.Coherent := by
  refine start_coherent ?_
  have hfile := Cartridge.code_file contents.toList file
  exact ⟨hfile.symm, hfile.symm⟩

theorem Orderly.push (h : s.Orderly c) (path : String) : { s with files := s.files.push path }.Orderly c ∧
    { s with files := s.files.push path }.openFiles = s.openFiles := by
  have hopen : { s with files := s.files.push path }.openFiles = s.openFiles := by
    refine filterMap_congr fun w hw => ?_
    exact Array.getElem?_push_lt (h.opened w hw) |>.trans (by simp [h.opened w hw])
  refine ⟨⟨h.coherent, fun w hw => ?_, ?_, ?_⟩, hopen⟩
  · rw [Array.size_push]
    exact Nat.lt_succ_of_lt (h.opened w hw)
  · rw [hopen]
    exact h.distinct
  · rw [hopen]
    exact h.stored

theorem Orderly.enter (h : s.Orderly c) {path : String} (span : Span) (hcoherent : w.Coherent)
    (hw : w.file = s.files.size) (hpath : path ∉ s.openFiles) (hstored : path ∈ c.store.documents.map (·.1)) :
    { s with files := s.files.push path, window := w, suspended := ⟨s.window, span⟩ :: s.suspended }.Orderly c := by
  obtain ⟨hpush, hopen⟩ := h.push path
  have hnew : { s with files := s.files.push path, window := w, suspended := ⟨s.window, span⟩ :: s.suspended }.openFiles =
      path :: s.openFiles := by
    rw [← hopen]
    simp [openFiles, windows, hw]
  have hne : s.openFiles ≠ [] := by
    rw [← length_pos_iff_ne_nil, length_openFiles h.opened]
    exact Nat.succ_pos _
  refine ⟨?_, ?_, ?_, ?_⟩
  · intro v hv
    rcases mem_cons.mp hv with rfl | hv
    · exact hcoherent
    · exact h.coherent v hv
  · intro v hv
    rcases mem_cons.mp hv with rfl | hv
    · rw [hw, Array.size_push]
      exact Nat.lt_succ_self _
    · exact hpush.opened v hv
  · rw [hnew]
    exact nodup_cons.mpr ⟨hpath, h.distinct⟩
  · rw [hnew, dropLast_cons_of_ne_nil hne]
    intro p hp
    rcases mem_cons.mp hp with rfl | hp
    · exact hstored
    · exact h.stored p hp

theorem openInclude_orderly (h : s.Orderly c) (target : String) (span : Span) :
    (openInclude c s target span).Orderly c ∧
      (openInclude c s target span).remaining c <
        s.remaining c + (2 * c.store.longest + 1) ^ (c.store.documents.length - s.suspended.length) := by
  have hpower : ∀ n, 0 < (2 * c.store.longest + 1) ^ n := fun n => by positivity
  unfold openInclude
  dsimp only
  split
  next fault hopened =>
    exact ⟨⟨h.coherent, h.opened, h.distinct, h.stored⟩, Nat.lt_add_of_pos_right (hpower _)⟩
  next contents hopened =>
    have hclosed : Path.resolve s.currentFile target ∉ s.openFiles := by
      intro hmem
      simp [hmem] at hopened
    have hload : c.store.openInclude (Path.resolve s.currentFile target) target = .ok contents := by
      simpa [hclosed] using hopened
    have hstored := mem_documents_of_openInclude hload
    split
    next =>
      obtain ⟨hpush, -⟩ := h.push (Path.resolve s.currentFile target)
      exact ⟨⟨hpush.coherent, hpush.opened, hpush.distinct, hpush.stored⟩, Nat.lt_add_of_pos_right (hpower _)⟩
    next =>
      have henter := h.enter span (start_ofText_coherent c.encoding contents s.files.size)
        (start_ofText_file c.encoding contents s.files.size) hclosed (mem_map_of_mem hstored)
      refine ⟨⟨henter.coherent, henter.opened, henter.distinct, henter.stored⟩, ?_⟩
      -- One more document is open now, so that there was room for it on the stack.
      have hroom : s.suspended.length + 1 ≤ c.store.documents.length := henter.length_suspended_le
      have hfew : (ofText c.encoding contents s.files.size).start.2.steps < 2 * c.store.longest + 1 := by
        have hsteps := start_ofText_steps_le c.encoding contents s.files.size
        have hlong := length_le_longest hstored
        omega
      have hlevel : c.store.documents.length - s.suspended.length =
          c.store.documents.length - (s.suspended.length + 1) + 1 := by omega
      have hpay := Nat.mul_lt_mul_of_pos_right hfew (hpower (c.store.documents.length - (s.suspended.length + 1)))
      rw [← pow_succ', ← hlevel] at hpay
      have hsum := Nat.add_lt_add_right hpay (s.remaining c)
      rw [Nat.add_comm (_ ^ _)] at hsum
      simpa [remaining, weigh, windows, report] using hsum

theorem passInclude_orderly (h : s.Orderly c) (htoken : s.window.token.isEof = false) :
    (s.passInclude c).Orderly c ∧ (s.passInclude c).remaining c < s.remaining c := by
  have hlt := next_steps_lt htoken
  have hmoved : ({ s with window := s.window.next.2 }.report s.window.next.1.toList).Orderly c :=
    h.of_files rfl (fun w hw => by
      rcases mem_cons.mp hw with rfl | hw
      · exact h.window.next
      · exact h.coherent w (mem_cons_of_mem _ hw)) (by simp [windows, report])
  obtain ⟨horderly, hopen⟩ := openInclude_orderly hmoved s.window.token.text s.window.token.span
  refine ⟨horderly.resume horderly.window rfl, ?_⟩
  refine (remaining_resume_le le_rfl).trans_lt (hopen.trans_le ?_)
  -- The step that the line itself has cost is one of its own document.
  have hstep : s.window.next.2.steps + 1 ≤ s.window.steps := hlt
  have hweight := Nat.mul_le_mul_right
    ((2 * c.store.longest + 1) ^ (c.store.documents.length - s.suspended.length)) hstep
  simp only [remaining, weigh, windows, report, length_map, Nat.add_mul, Nat.one_mul] at hweight ⊢
  omega

/-! ### Acts -/

theorem Act.cases_window (h : Act c s t) :
    (t.window = s.window ∧ t.suspended = s.suspended ∧ t.files = s.files) ∨
      t = s.resume s.window.next.2 ∨ (∃ shown, t = s.resume (s.window.setNewlines shown).2) ∨
      (s.window.token.kind = .directive ∧ t = s.passInclude c) := by
  cases h with
  | next => exact .inr (.inl rfl)
  | newlines shown => exact .inr (.inr (.inl ⟨shown, rfl⟩))
  | directive hkind => exact .inr (.inr (.inr ⟨hkind, rfl⟩))
  | leaveFunction =>
    left
    unfold Session.leaveFunction
    split <;> exact ⟨rfl, rfl, rfl⟩
  | addName =>
    left
    unfold Session.addName
    split <;> exact ⟨rfl, rfl, rfl⟩
  | addGlobal =>
    left
    unfold Session.addGlobal
    split <;> exact ⟨rfl, rfl, rfl⟩
  | report | markers | openBlock | closeBlock | addLocal | addGoto | addLabel | raiseDeferred | allowVararg
  | enterFunction | openScope | closeScope | restore => exact .inl ⟨rfl, rfl, rfl⟩

theorem isEof_of_directive {k : Token} (h : k.kind = .directive) : k.isEof = false := by
  simp [Token.isEof, h]

theorem Act.orderly (h : Act c s t) (hs : s.Orderly c) : t.Orderly c := by
  obtain ⟨hwindow, hsuspended, hfiles⟩ | rfl | ⟨shown, rfl⟩ | ⟨hkind, rfl⟩ := h.cases_window
  · have hwindows : t.windows = s.windows := by simp [windows, hwindow, hsuspended]
    refine hs.of_files hfiles ?_ ?_
    · rw [hwindows]
      exact hs.coherent
    · rw [hwindows]
  · exact hs.resume hs.window.next (next_file _)
  · exact hs.resume (hs.window.setNewlines shown) (setNewlines_file _ _)
  · exact (passInclude_orderly hs (isEof_of_directive hkind)).1

theorem Act.remaining_le (h : Act c s t) (hs : s.Orderly c) : t.remaining c ≤ s.remaining c := by
  obtain ⟨hwindow, hsuspended, -⟩ | rfl | ⟨shown, rfl⟩ | ⟨hkind, rfl⟩ := h.cases_window
  · simp [remaining, windows, hwindow, hsuspended]
  · exact remaining_resume_le (next_steps_le _)
  · refine remaining_resume_le ?_
    obtain hlt | ⟨heq, -⟩ := s.window.setNewlines_steps shown
    · exact hlt.le
    · exact heq.le
  · exact (passInclude_orderly hs (isEof_of_directive hkind)).2.le

theorem Act.token_eq (h : Act c s t) (hs : s.Orderly c) (htoken : s.window.token.isEof = false) :
    t.remaining c < s.remaining c ∨ t.window.token = s.window.token := by
  obtain ⟨hwindow, -, -⟩ | rfl | ⟨shown, rfl⟩ | ⟨hkind, rfl⟩ := h.cases_window
  · exact .inr (congrArg token hwindow)
  · exact .inl (remaining_resume_lt (next_steps_lt htoken))
  · obtain hlt | ⟨-, heq⟩ := s.window.setNewlines_steps shown
    · exact .inl (remaining_resume_lt hlt)
    · right
      unfold resume
      rw [← heq] at htoken ⊢
      cases s.suspended with
      | nil => rfl
      | cons =>
        unfold unwind
        rw [if_neg (by simp [htoken])]
  · exact .inl (passInclude_orderly hs htoken).2

/-- What every act keeps is kept along the way. -/
theorem Reaches.keeps {P : Session → Prop} (h : Reaches c s t) (hact : ∀ {s t : Session}, Act c s t → P s → P t) (hs : P s) :
    P t := by
  induction h with
  | refl => exact hs
  | act _ last ih => exact hact last ih

theorem Reaches.orderly (h : Reaches c s t) (hs : s.Orderly c) : t.Orderly c := h.keeps Act.orderly hs

theorem Reaches.remaining_le (h : Reaches c s t) (hs : s.Orderly c) : t.remaining c ≤ s.remaining c := by
  induction h with
  | refl => exact le_rfl
  | act before last ih => exact (last.remaining_le (before.orderly hs)).trans ih

theorem Reaches.token_eq (h : Reaches c s t) (hs : s.Orderly c) (htoken : s.window.token.isEof = false) :
    t.remaining c < s.remaining c ∨ t.window.token = s.window.token := by
  induction h with
  | refl => exact .inr rfl
  | @act u v before last ih =>
    have hu := before.orderly hs
    obtain hlt | heq := ih
    · exact .inl ((last.remaining_le hu).trans_lt hlt)
    · obtain hlt | hlast := last.token_eq hu (heq ▸ htoken)
      · exact .inl (hlt.trans_le (before.remaining_le hs))
      · exact .inr (hlast.trans heq)

end Session

end CartLua
