import CartLua.Proofs.Cues
import CartLua.Proofs.GrammarDerivation
/-!
# What a parser reads

A run without syntax faults accounts for all that it does: the tokens it has used up hold the words of the tree it gives,
and the account of control flow and of globals has followed the cues of that tree. `Reads` says so of two sessions; it is put together
along the run, one lemma for each parser. Where line ends are shown, none of them is passed over.
-/

namespace CartLua

open List Token

variable {k : Token} {terminal : Terminal}

theorem isSolid_of_is (h : k.is terminal = true) : k.isSolid = true := by
  rw [is_iff_kind] at h
  cases terminal <;> simp [isSolid, isEof, isNewline, Terminal.kind, h]

theorem tokensFrom_append {front rest : List Token} (hordered : (front ++ k :: rest).Pairwise Token.Before)
    (hrest : rest ≠ []) : tokensFrom (front ++ k :: rest) k.span.stop = rest := by
  obtain ⟨-, hbehind, hfront⟩ := pairwise_append.mp hordered
  obtain ⟨next, others, rfl⟩ := exists_cons_of_ne_nil hrest
  obtain ⟨hk, -⟩ := pairwise_cons.mp hbehind
  obtain ⟨hproper, hnext⟩ := hk next (mem_cons_self ..)
  have hpassed : ∀ a ∈ front ++ [k], (decide (a.span.start.index < k.span.stop.index)) = true := by
    intro a ha
    rcases mem_append.mp ha with ha | ha
    · have hbefore := hfront a ha k (mem_cons_self ..)
      unfold Token.Before at hbefore
      exact decide_eq_true (by omega)
    · rw [mem_singleton.mp ha]
      exact decide_eq_true hproper
  have hsplit : front ++ k :: next :: others = (front ++ [k]) ++ next :: others := by simp
  rw [tokensFrom, hsplit, dropWhile_append_of_pos hpassed, dropWhile_cons_of_neg (by simpa using hnext)]

namespace Window

variable {w : Window}

/-- The current token is a line end or stands on the line of the token before it. Behind an `end` it may stand on a later
line, as line ends can be hidden in the block that the keyword closes. -/
def Joined (w : Window) : Prop :=
  w.token.isNewline = true ∨ w.token.span.start.line ≤ w.previous.span.stop.line ∨ w.previous.is Keyword.endKw = true

/-- No line end is passed over where they are shown. -/
def OnLine (w : Window) : Prop := w.newlines = true → w.Joined

theorem next_onLine (hsolid : w.token.isSolid = true) : w.next.2.OnLine := by
  intro hshown
  rw [next_newlines] at hshown
  unfold Joined
  rw [next_token, next_previous, atLineEnd_solid hsolid, hshown]
  split
  next => exact .inl rfl
  next hline => exact .inr (.inl (by simpa using hline))

theorem setNewlines_of_shown (hshown : w.newlines = true) : w.setNewlines true = (none, w) := by
  show (none, { w with newlines := true }) = (none, w)
  rw [← hshown]

end Window

namespace Session

variable {c : Settings} {s t u : Session} {nl before between after : Bool} {words : List Word}
  {cues : List Token → List Cue} {front : List Token}

def track (s : Session) : Track := ⟨s.flow, s.outerFlows, s.errors.toList, s.globals.toList⟩

/-- The tokens `front` of a text have been passed: those behind the token passed last are the others. -/
def HasPassed (s : Session) (front : List Token) : Prop :=
  ∀ rest, rest ≠ [] → (front ++ rest).Pairwise Token.Before →
    tokensFrom (front ++ rest) s.window.previous.span.stop = rest

theorem HasPassed.append {used : List Token} (h : s.HasPassed front)
    (hprevious : t.window.previous = used.getLast?.getD s.window.previous) : t.HasPassed (front ++ used) := by
  intro rest hrest hordered
  rcases eq_nil_or_concat used with rfl | ⟨before, last, rfl⟩
  · rw [append_nil] at hordered ⊢
    rw [hprevious]
    exact h rest hrest hordered
  · have hsplit : front ++ before.concat last ++ rest = front ++ before ++ last :: rest := by simp
    rw [hsplit] at hordered ⊢
    rw [hprevious, concat_eq_append, getLast?_concat]
    exact tokensFrom_append hordered hrest

/-- From `s` to `t`, tokens with the words `words` were used up and `cues` followed. The cues depend on the tokens of the
whole text. -/
structure Account (after : Bool) (words : List Word) (cues : List Token → List Cue) (s t : Session) : Prop where
  newlines : t.window.newlines = after
  used : ∀ rest, t.window.stream = .ok rest → ∃ used, s.window.stream = .ok (used ++ rest) ∧
    Token.words used = words ∧ t.window.previous = used.getLast?.getD s.window.previous ∧
    ∀ front, s.HasPassed front → (front ++ used ++ rest).Pairwise Token.Before →
      t.track = s.track.along (cues (front ++ used ++ rest))

/-- What is known of the run from `s` to `t` whatever is included and whatever faults are found: a string among `words` was
a token, a statement among `cues` was read on the way, and `cues` were followed if there is no error at all. -/
structure Outlines (c : Settings) (words : List Word) (cues : List Token → List Cue) (s t : Session) : Prop where
  reaches : Reaches c s t
  strings : ∀ value text, .string value text ∈ words → ∃ u, Reaches c s u ∧ u.window.token.kind = .string value
  statements : ∀ ts stmt, .proper stmt ∈ cues ts →
    ∃ levels u v, Reaches c s u ∧ Derives c u (.proper levels stmt) v ∧ Reaches c v t
  calm : t.errors = #[] → ∀ ts, t.track = s.track.along (cues ts)

/-- The run from `s` to `t` accounts for `words` and `cues`, and line ends are shown as `before` and `after` say, if there
are no include lines and no syntax faults. -/
structure Accounts (c : Settings) (before after : Bool) (words : List Word) (cues : List Token → List Cue)
    (s t : Session) : Prop extends Outlines c words cues s t where
  account : s.Plain → t.Clean → s.window.newlines = before → Account after words cues s t

/-- The run from `s` to `t` reads `words` and `cues`, and it either stays where it is or passes over no line end. -/
structure Reads (c : Settings) (before after : Bool) (words : List Word) (cues : List Token → List Cue) (s t : Session) :
    Prop extends Accounts c before after words cues s t where
  lines : s.Plain → t.Clean → s.window.newlines = before → t.window = s.window ∨ t.window.OnLine

theorem Reaches.errors_eq (h : Reaches c s t) (ht : t.errors = #[]) : s.errors = #[] := by
  have hprefix := h.errors_prefix
  rw [ht] at hprefix
  exact Array.toList_inj.mp (prefix_nil.mp hprefix)

theorem Reaches.track_eq (h : Reaches c s t) (hflow : t.flow = s.flow) (houter : t.outerFlows = s.outerFlows)
    (hglobals : t.globals = s.globals) (ht : t.errors = #[]) : t.track = s.track := by
  simp only [track, hflow, houter, hglobals, ht, h.errors_eq ht]

namespace Outlines

variable {cues' : List Token → List Cue} {words' : List Word}

theorem trans (hst : Outlines c words cues s t)
    (htu : Outlines c words' cues' t u) : Outlines c (words ++ words') (fun ts => cues ts ++ cues' ts) s u where
  reaches := hst.reaches.trans htu.reaches
  strings value text hmem := by
    obtain hmem | hmem := mem_append.mp hmem
    · exact hst.strings value text hmem
    · obtain ⟨v, hv, hkind⟩ := htu.strings value text hmem
      exact ⟨v, hst.reaches.trans hv, hkind⟩
  statements ts stmt hmem := by
    obtain hmem | hmem := mem_append.mp hmem
    · obtain ⟨levels, v, w, hv, hstmt, hw⟩ := hst.statements ts stmt hmem
      exact ⟨levels, v, w, hv, hstmt, hw.trans htu.reaches⟩
    · obtain ⟨levels, v, w, hv, hstmt, hw⟩ := htu.statements ts stmt hmem
      exact ⟨levels, v, w, hst.reaches.trans hv, hstmt, hw⟩
  calm hu ts := by rw [Track.along_append, ← hst.calm (htu.reaches.errors_eq hu), htu.calm hu]

theorem silent (hreach : Reaches c s t) (htrack : t.errors = #[] → t.track = s.track) :
    Outlines c [] (fun _ => []) s t :=
  ⟨hreach, nofun, fun _ _ hmem => absurd hmem not_mem_nil, fun ht _ => htrack ht⟩

theorem pass (hst : Outlines c words cues s t) (htu : Outlines c [] (fun _ => []) t u) : Outlines c words cues s u := by
  simpa using hst.trans htu

theorem behind (hst : Outlines c [] (fun _ => []) s t) (htu : Outlines c words cues t u) : Outlines c words cues s u := by
  simpa using hst.trans htu

theorem of_error (hreach : Reaches c s t) (hstrings : ∀ value text, .string value text ∉ words)
    (hcues : ∀ ts stmt, .proper stmt ∉ cues ts) (ht : t.errors ≠ #[]) : Outlines c words cues s t :=
  ⟨hreach, fun value text hmem => absurd hmem (hstrings value text), fun ts stmt hmem => absurd hmem (hcues ts stmt),
    fun hnone => absurd hnone ht⟩

end Outlines

namespace Accounts

theorem trans (hst : Accounts c before between words cues s t)
    (htu : Accounts c between after words' cues' t u) :
    Accounts c before after (words ++ words') (fun ts => cues ts ++ cues' ts) s u := by
  refine ⟨hst.toOutlines.trans htu.toOutlines, fun hplain hclean hbefore => ?_⟩
  have first := hst.account hplain (hclean.of_reaches htu.reaches) hbefore
  have second := htu.account (hst.reaches.plain hplain) hclean first.newlines
  refine ⟨second.newlines, fun rest hrest => ?_⟩
  obtain ⟨used', hstream', hwords', hprevious', hcues'⟩ := second.used rest hrest
  obtain ⟨used, hstream, hwords, hprevious, hcues⟩ := first.used (used' ++ rest) hstream'
  refine ⟨used ++ used', ?_, ?_, ?_, fun front hpassed hordered => ?_⟩
  · rw [hstream, append_assoc]
  · rw [words_append, hwords, hwords']
  · rw [hprevious', hprevious, getLast?_append]
    cases used'.getLast? <;> rfl
  · have hsplit : front ++ (used ++ used') ++ rest = front ++ used ++ (used' ++ rest) := by simp
    have hsplit' : front ++ (used ++ used') ++ rest = front ++ used ++ used' ++ rest := by simp
    have h := hcues' (front ++ used) (hpassed.append hprevious) (hsplit' ▸ hordered)
    rw [h, hcues front hpassed (hsplit ▸ hordered), hsplit, Track.along_append]
    simp

theorem pass (hst : Accounts c before between words cues s t) (htu : Accounts c between after [] (fun _ => []) t u) :
    Accounts c before after words cues s u := by
  simpa using hst.trans htu

theorem behind (hst : Accounts c before between [] (fun _ => []) s t) (htu : Accounts c between after words cues t u) :
    Accounts c before after words cues s u := by
  simpa using hst.trans htu

end Accounts

namespace Reads

theorem trans (hst : Reads c before between words cues s t)
    (htu : Reads c between after words' cues' t u) :
    Reads c before after (words ++ words') (fun ts => cues ts ++ cues' ts) s u := by
  refine ⟨hst.toAccounts.trans htu.toAccounts, fun hplain hclean hbefore => ?_⟩
  have hfirst := hclean.of_reaches htu.reaches
  have hbetween := (hst.account hplain hfirst hbefore).newlines
  obtain hsame | hline := htu.lines (hst.reaches.plain hplain) hclean hbetween
  · rw [hsame]
    exact hst.lines hplain hfirst hbefore
  · exact .inr hline

theorem joined (hst : Reads c true true words cues s t) (hplain : s.Plain) (hclean : u.Clean)
    (hshown : s.window.newlines = true) (htu : Reaches c t u)
    (h : t.Plain → u.Clean → t.window.newlines = true → u.window = t.window ∨ u.window.Joined) :
    u.window = s.window ∨ u.window.Joined := by
  have hfirst := hclean.of_reaches htu
  have hnewlines := (hst.account hplain hfirst hshown).newlines
  obtain hsame | hjoined := h (hst.reaches.plain hplain) hclean hnewlines
  · rw [hsame]
    exact (hst.lines hplain hfirst hshown).imp_right fun hline => hline hnewlines
  · exact .inr hjoined

theorem silent (hreach : Reaches c s t) (hwindow : t.window = s.window) (htrack : t.track = s.track) :
    Reads c nl nl [] (fun _ => []) s t := by
  refine ⟨⟨.silent hreach fun _ => htrack,
    fun _ _ hnl => ⟨hwindow ▸ hnl, fun rest hrest => ⟨[], ?_, rfl, ?_, fun _ _ _ => htrack⟩⟩⟩, fun _ _ _ => .inl hwindow⟩
  · exact hwindow ▸ hrest
  · rw [hwindow]
    rfl

theorem refl : Reads c nl nl [] (fun _ => []) s s := silent .refl rfl rfl

theorem pass (hst : Reads c before between words cues s t) (htu : Reads c between after [] (fun _ => []) t u) :
    Reads c before after words cues s u := by
  simpa using hst.trans htu

theorem behind (hst : Reads c before between [] (fun _ => []) s t) (htu : Reads c between after words cues t u) :
    Reads c before after words cues s u := by
  simpa using hst.trans htu

theorem cue {cue : Cue} (hcue : ∀ stmt, .proper stmt ≠ cue) (hreach : Reaches c s t) (hwindow : t.window = s.window)
    (htrack : t.track = s.track.follow cue) : Reads c nl nl [] (fun _ => [cue]) s t := by
  refine ⟨⟨⟨hreach, nofun, fun _ stmt hmem => absurd (mem_singleton.mp hmem) (hcue stmt), fun _ _ => htrack⟩,
    fun _ _ hnl => ⟨hwindow ▸ hnl, fun rest hrest => ⟨[], ?_, rfl, ?_, fun _ _ _ => htrack⟩⟩⟩, fun _ _ _ => .inl hwindow⟩
  · exact hwindow ▸ hrest
  · rw [hwindow]
    rfl

theorem proper {levels : Nat} {stmt : Stmt} (hreach : Reaches c s t) (hwindow : t.window = s.window)
    (htrack : t.track = s.track.follow (.proper stmt)) (hstmt : Derives c t (.proper levels stmt) u)
    (h : Reads c before after words cues t u) : Reads c before after words (fun ts => .proper stmt :: cues ts) s u := by
  refine ⟨⟨⟨hreach.trans h.reaches, fun value text hmem => ?_, fun ts other hmem => ?_, fun ht ts => ?_⟩,
    fun hplain hclean hbefore => ?_⟩, fun hplain hclean hbefore => ?_⟩
  · obtain ⟨v, hv, hkind⟩ := h.strings value text hmem
    exact ⟨v, hreach.trans hv, hkind⟩
  · obtain hhere | hmem := mem_cons.mp hmem
    · cases hhere
      exact ⟨levels, t, u, hreach, hstmt, .refl⟩
    · obtain ⟨levels, v, w, hv, hother, hw⟩ := h.statements ts other hmem
      exact ⟨levels, v, w, hreach.trans hv, hother, hw⟩
  · rw [h.calm ht ts, htrack, Track.along_cons]
  · obtain ⟨hnewlines, hused⟩ := h.account (hreach.plain hplain) hclean (hwindow ▸ hbefore)
    refine ⟨hnewlines, fun rest hrest => ?_⟩
    obtain ⟨used, hstream, hwords, hprevious, hcues⟩ := hused rest hrest
    refine ⟨used, hwindow ▸ hstream, hwords, hwindow ▸ hprevious, fun front hpassed hordered => ?_⟩
    have hpassed' : t.HasPassed front := by
      unfold HasPassed
      rw [hwindow]
      exact hpassed
    rw [hcues front hpassed' hordered, htrack, Track.along_cons]
  · exact hwindow ▸ h.lines (hreach.plain hplain) hclean (hwindow ▸ hbefore)

variable {cues' : List Token → List Cue}

theorem as (h : Reads c before after words cues s t)
    (heq : words = words' ∧ ∀ ts, cues ts = cues' ts) : Reads c before after words' cues' s t := by
  obtain ⟨rfl, hcues⟩ := heq
  obtain rfl : cues = cues' := funext hcues
  exact h

theorem asHere (h : Reads c before after words cues s t) (houtlines : Outlines c words cues' s t)
    (hcues : ∀ front ts, s.Plain → s.window.newlines = before → s.HasPassed front → s.window.stream = .ok ts →
      (front ++ ts).Pairwise Token.Before → cues (front ++ ts) = cues' (front ++ ts)) :
    Reads c before after words cues' s t := by
  refine ⟨⟨houtlines, fun hplain hclean hbefore => ?_⟩, h.lines⟩
  have account := h.account hplain hclean hbefore
  refine ⟨account.newlines, fun rest hrest => ?_⟩
  obtain ⟨used, hstream, hwords, hprevious, htrack⟩ := account.used rest hrest
  refine ⟨used, hstream, hwords, hprevious, fun front hpassed hordered => ?_⟩
  rw [htrack front hpassed hordered]
  rw [append_assoc] at hordered ⊢
  rw [hcues front _ hplain hbefore hpassed hstream hordered]

theorem intro (houtlines : Outlines c words cues s t)
    (h : s.Plain → s.window.newlines = before → Reads c before after words cues s t) :
    Reads c before after words cues s t :=
  ⟨⟨houtlines, fun hplain hclean hbefore => (h hplain hbefore).account hplain hclean hbefore⟩,
    fun hplain hclean hbefore => (h hplain hbefore).lines hplain hclean hbefore⟩

end Reads

end Session

namespace Parse

open Session

variable {α : Type} {c : Settings} {s t : Session} {nl : Bool} {a : Unit}

/-! ### Moving over tokens -/

theorem advance_eq (hplain : s.Plain) (h : advance.run c s = .ok a t) :
    s.window.next.1 = none ∧ t = { s with window := s.window.next.2 } := by
  rw [run_advance] at h
  split at h
  next hnext =>
    cases h
    exact ⟨hnext, hplain.resume _⟩
  next => cases h

theorem track_advance (h : advance.run c s = .ok a t) : t.track = s.track := by
  rw [run_advance] at h
  split at h
  · cases h
    rfl
  · cases h

theorem kind_of_word? {k : Token} {value : Option String} {text : String} (h : k.word? = some (.string value text)) :
    k.kind = .string value := by
  unfold word? at h
  split at h
  case h_7 sign _ => cases sign <;> cases h
  case h_8 word _ => cases word <;> cases h
  all_goals
    cases h
    try assumption

theorem onLine_advance (hplain : s.Plain) (hsolid : s.window.token.isSolid = true) (h : advance.run c s = .ok a t) :
    t.window.OnLine := by
  obtain ⟨-, rfl⟩ := advance_eq hplain h
  exact Window.next_onLine hsolid

theorem reads_advance (hsolid : s.window.token.isSolid = true) (h : advance.run c s = .ok a t) :
    Reads c nl nl s.window.token.word?.toList (fun _ => []) s t := by
  refine ⟨⟨⟨reaches h, fun value text hmem => ⟨s, .refl, kind_of_word? (Option.mem_toList.mp hmem)⟩,
    fun _ _ hmem => absurd hmem not_mem_nil, fun _ _ => track_advance h⟩, fun hplain _ hnl => ?_⟩,
    fun hplain _ _ => .inr (onLine_advance hplain hsolid h)⟩
  obtain ⟨hnext, rfl⟩ := advance_eq hplain h
  refine ⟨(Window.next_newlines _).trans hnl, fun rest hrest => ?_⟩
  refine ⟨[s.window.token], ?_, ?_, ?_, fun _ _ _ => rfl⟩
  · rw [Window.next_stream hplain.window hsolid hnext, hrest]
    rfl
  · unfold words
    cases hword : s.window.token.word? <;> simp [hword]
  · exact Window.next_previous _

theorem window_setNewlines {shown : Bool} (hplain : s.Plain) (h : (setNewlines shown).run c s = .ok a t) :
    t.window = (s.window.setNewlines shown).2 := by
  have hreported : (s.report (s.window.setNewlines shown).1.toList).Plain := ⟨hplain.alone, hplain.window⟩
  rw [run_setNewlines] at h
  cases h
  rw [hreported.resume]

theorem accounts_setNewlines {shown : Bool} (h : (setNewlines shown).run c s = .ok a t) :
    Accounts c nl shown [] (fun _ => []) s t := by
  refine ⟨.silent (reaches h) ((reaches h).track_eq ?_ ?_ ?_), fun hplain hclean _ => ?_⟩
  iterate 3
    · cases h
      rfl
  rw [run_setNewlines] at h
  cases h
  have hreported : (s.report (s.window.setNewlines shown).1.toList).Plain := ⟨hplain.alone, hplain.window⟩
  rw [hreported.resume] at hclean ⊢
  have hnone : (s.window.setNewlines shown).1 = none := by
    cases hfault : (s.window.setNewlines shown).1 with
    | none => rfl
    | some d =>
      have hflow := hclean d (by simp [Session.report, hfault])
      rw [Fault.isFlow_of_isLexical (Window.isLexical_of_setNewlines hfault)] at hflow
      cases hflow
  refine ⟨Window.setNewlines_newlines _ _, fun rest hrest => ⟨[], ?_, rfl, ?_, fun _ _ _ => ?_⟩⟩
  · exact (Window.setNewlines_stream hplain.window hnone).symm.trans hrest
  · exact Window.setNewlines_previous _ _
  · simp [track, Session.report, hnone]

theorem onLine_of_hidden {w : Window} (h : w.newlines = false) : w.OnLine := by
  intro hshown
  rw [h] at hshown
  cases hshown

theorem reads_hiding (h : (setNewlines false).run c s = .ok a t) : Reads c nl false [] (fun _ => []) s t := by
  refine ⟨accounts_setNewlines h, fun hplain _ _ => .inr (onLine_of_hidden ?_)⟩
  rw [window_setNewlines hplain h]
  exact Window.setNewlines_newlines _ _

section Restoring

variable {b : Unit} {shown inside : Bool} {u v : Session} {words : List Word} {cues : List Token → List Cue}

/-- Line ends are shown in the same way again behind a part that was read with them shown in another. -/
theorem accounts_restoring (hset : (setNewlines shown).run c s = .ok a u) (hinner : Accounts c shown inside words cues u v)
    (hrestore : (setNewlines s.window.newlines).run c v = .ok b t) : Accounts c nl nl words cues s t := by
  have hread : Accounts c nl s.window.newlines words cues s t :=
    .behind (accounts_setNewlines hset) (hinner.pass (accounts_setNewlines hrestore))
  exact ⟨hread.toOutlines, fun hplain hclean hnl => hnl ▸ hread.account hplain hclean hnl⟩

theorem reads_showing (hset : (setNewlines true).run c s = .ok a u) (hinner : Accounts c true inside words cues u v)
    (hlines : u.Plain → v.Clean → u.window.newlines = true → v.window = u.window ∨ v.window.Joined)
    (hrestore : (setNewlines s.window.newlines).run c v = .ok b t) : Reads c nl nl words cues s t := by
  refine ⟨accounts_restoring hset hinner hrestore, fun hplain hclean _ => ?_⟩
  have hu := (reaches hset).plain hplain
  have hwindow := window_setNewlines hplain hset
  have hwindow' := window_setNewlines (hinner.reaches.plain hu) hrestore
  cases hshown : s.window.newlines with
  | false =>
    refine .inr (onLine_of_hidden ?_)
    rw [hwindow', hshown]
    exact Window.setNewlines_newlines _ _
  | true =>
    rw [Window.setNewlines_of_shown hshown] at hwindow
    rw [hshown] at hwindow'
    obtain hsame | hjoined := hlines hu (hclean.of_reaches (reaches hrestore)) (hwindow ▸ hshown)
    · rw [hsame, hwindow, Window.setNewlines_of_shown hshown] at hwindow'
      exact .inl hwindow'
    · rw [hwindow']
      exact .inr fun _ => hjoined

end Restoring

theorem reads_pass (hnone : terminal.word? = none) (his : s.window.token.is terminal = true)
    (h : advance.run c s = .ok a t) :
    Reads c nl nl [] (fun _ => []) s t := by
  have hread : Reads c nl nl _ _ _ _ := reads_advance (isSolid_of_is his) h
  rw [word?_of_is his, hnone] at hread
  exact hread

theorem reads_consume {found : Bool} (hnone : terminal.word? = none) (h : (consume terminal).run c s = .ok found t) :
    Reads c nl nl [] (fun _ => []) s t := by
  cases found with
  | false =>
    rw [consume_eq_false h]
    exact .refl
  | true => exact reads_pass hnone (is_of_consume h) (advance_of_consume h)

theorem reads_expect (hnone : terminal.word? = none) (h : (expect terminal).run c s = .ok a t) :
    Reads c nl nl [] (fun _ => []) s t := by
  obtain ⟨_ | _, u, hconsume, ⟨⟩⟩ := run_bind_eq_ok.mp h
  exact reads_consume hnone hconsume

theorem onLine_expect (hplain : s.Plain) (h : (expect terminal).run c s = .ok a t) : t.window.OnLine := by
  obtain ⟨_ | _, u, hconsume, ⟨⟩⟩ := run_bind_eq_ok.mp h
  exact onLine_advance hplain (isSolid_of_is (is_of_consume hconsume)) (advance_of_consume hconsume)

variable {cues : List Token → List Cue} {words : List Word} {id : Identifier} {id id' : Identifier} {right : Terminal}

theorem reads_enclosed {inside : Bool} {u v : Session} (hright : right.word? = none) (hset : (setNewlines false).run c s = .ok a u)
    (hinner : Reads c false inside words cues u v) (hclose : (closeBracket right s.window.newlines).run c v = .ok a t) :
    Reads c nl nl words cues s t := by
  obtain ⟨_, w, hrestore, hexpect⟩ := run_bind_eq_ok.mp hclose
  have hread : Accounts c nl nl _ _ _ _ := accounts_restoring hset hinner.toAccounts hrestore
  refine ⟨hread.pass (reads_expect hright hexpect).toAccounts, fun hplain _ _ => .inr ?_⟩
  exact onLine_expect (hread.reaches.plain hplain) hexpect

theorem reads_bracketed {outer : Bool} {left : Symbol} {u v : Session} (hleft : (Terminal.symbol left).word? = none) (hright : right.word? = none)
    (hopen : (openBracket left).run c s = .ok outer u) (hinner : Reads c false false words cues u v)
    (hclose : (closeBracket right outer).run c v = .ok a t) : Reads c nl nl words cues s t := by
  simp only [openBracket, run_bind_eq_ok, run_newlines, run_pure, Outcome.ok.injEq] at hopen
  obtain ⟨_, _, ⟨rfl, rfl⟩, _, _, hhide, _, _, hexpect, rfl, rfl⟩ := hopen
  exact reads_enclosed hright hhide (.behind (reads_expect hleft hexpect) hinner) hclose

theorem reads_identifier (h : identifier.run c s = .ok id t) : Reads c nl nl [.name id.name] (fun _ => []) s t := by
  obtain ⟨hid, rfl, hadvance⟩ := identifier_cases h
  have hkind := kind_of_isIdentifier hid
  have hsolid : s.window.token.isSolid = true := by simp [isSolid, isEof, isNewline, hkind]
  refine (reads_advance hsolid hadvance).as ⟨?_, fun _ => rfl⟩
  simp [word?, hkind]

theorem isWritten_identifier (hplain : s.Plain) (h : identifier.run c s = .ok id t) :
    id.isWritten = true ∧ t.window = s.window.next.2 := by
  obtain ⟨hid, rfl, hadvance⟩ := identifier_cases h
  have hkind := kind_of_isIdentifier hid
  have hgenuine := hplain.window.token (by simp [isNewline, hkind])
  obtain ⟨-, rfl⟩ := advance_eq hplain hadvance
  exact ⟨beq_iff_eq.mpr (hgenuine.written hid), rfl⟩

/-! ### Parsers that read nothing -/

/-- The parser changes neither tokens nor the account of control flow. -/
abbrev Silent (c : Settings) (p : Parse α) : Prop := Leaves c (fun s => (s.window, s.track)) p

theorem Silent.window {p : Parse α} [hp : Silent c p] {a : α} (h : p.run c s = .ok a t) : t.window = s.window :=
  congrArg Prod.fst (hp.unchanged h)

theorem reads_silent {p : Parse α} [hp : Silent c p] {a : α} (h : p.run c s = .ok a t) :
    Reads c nl nl [] (fun _ => []) s t :=
  .silent (reaches h) (Silent.window h) (congrArg Prod.snd (hp.unchanged h))

namespace Silent

instance : Silent c mark := .of_ok _ _ (fun _ => rfl) fun _ => rfl

instance : Silent c markAgain := .of_ok _ _ (fun _ => rfl) fun _ => rfl

instance : Silent c finish := .of_ok _ _ (fun _ => rfl) fun _ => rfl

instance : Silent c openScope := .of_ok _ _ (fun _ => rfl) fun _ => rfl

instance : Silent c closeScope := .of_ok _ _ (fun _ => rfl) fun _ => rfl

instance (name : String) : Silent c (addName name) := .of_ok _ _ (fun _ => rfl) fun s => by
  dsimp only [Session.addName]
  split <;> rfl

instance (id : Identifier) : Silent c (declare id) := by
  unfold declare
  infer_instance

end Silent

theorem reads_opens (hnone : terminal.word? = none) (h : Opens c terminal s t) :
    Reads c nl nl [] (fun _ => []) s t := by
  obtain ⟨hkind, u, hmark, hadvance⟩ := h
  have hwindow := Silent.window hmark
  exact (reads_silent hmark).trans (reads_pass hnone (hwindow ▸ is_iff_kind.mpr hkind) hadvance)

/-! ### Cues -/

theorem reads_openBlock {isLoop : Bool} (h : (openBlock isLoop).run c s = .ok a t) :
    Reads c nl nl [] (fun _ => [.openBlock isLoop]) s t := by
  refine .cue nofun (reaches h) ?_ ?_ <;> (cases h; rfl)

theorem reads_closeBlock (h : closeBlock.run c s = .ok a t) :
    Reads c nl nl [] (fun _ => [.closeBlock]) s t := by
  have hreach := reaches h
  rw [run_closeBlock] at h
  cases h
  refine .cue nofun hreach rfl ?_
  simp [track, Session.report, Track.follow]

theorem reads_addLocal {name : String} (h : (addLocal name).run c s = .ok a t) :
    Reads c nl nl [] (fun _ => [.addLocal name]) s t := by
  refine .cue nofun (reaches h) ?_ ?_ <;> (cases h; rfl)

theorem declareInFlow_eq (h : (declareInFlow id).run c s = .ok id' t) : id' = { id with isLocal := true } := by
  obtain ⟨_, _, -, ⟨⟩⟩ := run_bind_eq_ok.mp h
  rfl

theorem reads_declareInFlow (h : (declareInFlow id).run c s = .ok id' t) :
    Reads c nl nl [] (fun _ => [.addLocal id.name]) s t := by
  obtain ⟨_, u, hlocal, hdeclare⟩ := run_bind_eq_ok.mp h
  exact (reads_addLocal hlocal).pass (reads_silent hdeclare)

theorem reads_use (h : (reference id).run c s = .ok id' t) : Reads c nl nl [] (fun _ => [.reference id']) s t := by
  refine .cue nofun (reaches h) ?_ ?_ <;> (cases h; unfold Session.addGlobal)
  · split <;> rfl
  · simp only [Track.follow, track, contains_eq_mem, Array.contains_eq_mem, Array.mem_toList_iff]
    split <;> simp

theorem reads_addGoto (h : (addGoto id.name id.span).run c s = .ok a t) :
    Reads c nl nl [] (fun _ => [.goto id]) s t := by
  refine .cue nofun (reaches h) ?_ ?_ <;> (cases h; rfl)

theorem reads_addLabel (h : (addLabel id.name id.span).run c s = .ok a t) :
    Reads c nl nl [] (fun _ => [.label id]) s t := by
  have hreach := reaches h
  rw [run_addLabel] at h
  cases h
  refine .cue nofun hreach rfl ?_
  simp [track, Session.report, Track.follow]

theorem reads_proper {levels : Nat} {stmt : Stmt} {u : Session}
    (hraise : raiseDeferred.run c s = .ok a t) (hstmt : Derives c t (.proper levels stmt) u)
    (h : Reads c nl nl words cues t u) : Reads c nl nl words (fun ts => .proper stmt :: cues ts) s u := by
  have hreach := reaches hraise
  rw [run_raiseDeferred] at hraise
  cases hraise
  refine .proper hreach rfl ?_ hstmt h
  simp [track, Session.report, Track.follow]

theorem reads_allowVararg (h : allowVararg.run c s = .ok a t) :
    Reads c nl nl [] (fun _ => [.allowVararg]) s t := by
  refine .cue nofun (reaches h) ?_ ?_ <;> (cases h; rfl)

theorem reads_enterFunction (h : enterFunction.run c s = .ok a t) :
    Reads c nl nl [] (fun _ => [.enterFunction]) s t := by
  refine .cue nofun (reaches h) ?_ ?_ <;> (cases h; rfl)

theorem reads_leaveFunction (h : leaveFunction.run c s = .ok a t) :
    Reads c nl nl [] (fun _ => [.leaveFunction]) s t := by
  have hreach := reaches h
  rw [run_leaveFunction] at h
  cases h
  refine .cue nofun hreach ?_ ?_
  · unfold Session.leaveFunction
    split <;> rfl
  · unfold Session.leaveFunction
    cases houter : s.outerFlows <;> simp [track, Track.follow, houter]

end Parse

end CartLua
