import CartLua.Proofs.Reading
import CartLua.Proofs.Render
/-!
# Sessions that face tokens

A session faces tokens when they are all that is still to be read, without faults among them. From there a parser yields
what it should and faces the tokens behind; or it gives up because no syntax level is left, which is said to have a
reason; or a loop has no round left, which is settled elsewhere. `Yields` says so of a parser: it is a triple of the
tokens before, the parser, and what holds of its result and of the tokens behind.
-/

namespace CartLua

open List

/-- A token with this spelling, somewhere in a text. -/
def Spelling.at (w : Spelling) (span : Span) : Token := ⟨w.kind, w.text, span⟩

def Spelling.token (w : Spelling) : Token := w.at default

namespace Window

variable {w : Window} {first second : Spelling} {rest ws : List Spelling} {ts : List Token}

/-- The tokens that the window shows and all behind them are spelled `ws`. -/
structure Shows (w : Window) (ws : List Spelling) : Prop where
  plain : w.Plain
  newlines : w.newlines = false
  token : w.token.isNewline = false
  ended : w.lookahead.isEof = true → w.cursor.rest = []
  stream : ∃ ts, w.stream = .ok ts ∧ ts.map Token.spelling = ws

theorem Shows.spelling (h : w.Shows (first :: rest)) : w.token.spelling = first := by
  obtain ⟨ts, hstream, hts⟩ := h.stream
  have hhead : ∃ tail, ts = w.token :: tail := by
    rw [Window.stream] at hstream
    split at hstream
    · cases hstream
      exact ⟨[], rfl⟩
    · rw [if_neg (by simp [h.token])] at hstream
      cases hahead : w.ahead with
      | error =>
        rw [hahead] at hstream
        cases hstream
      | ok tail =>
        rw [hahead] at hstream
        cases hstream
        exact ⟨tail, rfl⟩
  obtain ⟨tail, rfl⟩ := hhead
  exact (cons.inj hts).1

theorem Shows.isSolid (h : w.Shows (first :: rest)) (hfirst : first.token.isEof = false) : w.token.isSolid = true := by
  rw [← h.spelling] at hfirst
  exact Token.isSolid_iff.mpr ⟨hfirst, h.token⟩

theorem Shows.lookahead_spelling (h : w.Shows (first :: second :: rest)) (hfirst : first.token.isEof = false) :
    w.lookahead.spelling = second := by
  obtain ⟨ts, hstream, hts⟩ := h.stream
  obtain ⟨tail, rfl⟩ := stream_solid (h.isSolid hfirst) hstream
  exact (cons.inj (cons.inj hts).2).1

theorem fetch_none_of_tokens (h : w.cursor.tokens w.encoding = .ok ts) : w.fetch.1 = none := by
  unfold fetch
  split
  · rfl
  · rfl
  next d cursor hscan =>
    rw [Cursor.tokens_of_fault hscan] at h
    cases h

theorem fetch_none (hended : w.lookahead.isEof = true → w.cursor.rest = []) (hahead : w.ahead = .ok ts) :
    w.fetch.1 = none := by
  rw [ahead] at hahead
  split at hahead
  next heof => exact fetch_none_of_tokens (Cursor.tokens_of_done (Cursor.scan_nil (hended heof)))
  next =>
    cases htokens : w.cursor.tokens w.encoding with
    | error =>
      rw [htokens] at hahead
      cases hahead
    | ok => exact fetch_none_of_tokens htokens

theorem fetch_ended (w : Window) (h : w.fetch.1 = none) :
    w.fetch.2.lookahead.isEof = true → w.fetch.2.cursor.rest = [] := by
  unfold fetch at h ⊢
  split at h
  next hscan => exact fun _ => (Cursor.scan_done hscan).1
  next hscan =>
    intro heof
    rw [Cursor.isEof_of_scan hscan] at heof
    cases heof
  next => cases h

theorem Shows.next (h : w.Shows (first :: rest)) (hfirst : first.token.isEof = false) :
    w.next.1 = none ∧ w.next.2.Shows rest := by
  have hsolid := h.isSolid hfirst
  have hline : ¬ w.atLineEnd = true := by simp [atLineEnd, h.newlines]
  obtain ⟨ts, hstream, hts⟩ := h.stream
  obtain ⟨tail, rfl⟩ := stream_solid hsolid hstream
  have hahead : w.ahead = .ok (w.lookahead :: tail) := by
    rw [stream_eq_map hsolid] at hstream
    cases hahead : w.ahead with
    | error =>
      rw [hahead] at hstream
      cases hstream
    | ok =>
      rw [hahead] at hstream
      cases hstream
      rfl
  have hnext : w.next = fetch { w with previous := w.token, token := w.lookahead } := by rw [Window.next, if_neg hline]
  have hnone : w.next.1 = none := by
    rw [hnext]
    exact fetch_none h.ended hahead
  refine ⟨hnone, h.plain.next, (next_newlines w).trans h.newlines, ?_, ?_, ?_⟩
  · rw [next_token, if_neg hline]
    exact h.plain.lookahead.newline
  · rw [hnext] at hnone ⊢
    exact fetch_ended _ hnone
  · have hmove := next_stream h.plain hsolid hnone
    rw [hstream] at hmove
    cases hbehind : w.next.2.stream with
    | error =>
      rw [hbehind] at hmove
      cases hmove
    | ok =>
      rw [hbehind] at hmove
      cases hmove
      exact ⟨_, rfl, (cons.inj hts).2⟩

theorem Shows.setNewlines (h : w.Shows ws) : (w.setNewlines false) = (none, w) := by
  have htoken := h.token
  have hnewlines := h.newlines
  cases w
  simp only at htoken hnewlines
  simp [Window.setNewlines, htoken, hnewlines]

end Window

namespace Session

variable {c : Settings} {s t : Session} {first second : Spelling} {rest ws : List Spelling}

/-- The tokens `ws` are all that is still to be read, and no syntax fault was found so far. -/
structure Faces (s : Session) (ws : List Spelling) : Prop where
  plain : s.Plain
  clean : s.Clean
  shows : s.window.Shows ws

theorem Faces.token (h : s.Faces (first :: rest)) : s.window.token = first.at s.window.token.span := by
  rw [← h.shows.spelling]
  rfl

theorem Faces.of_window (h : s.Faces ws) (hreach : Reaches c s t) (hwindow : t.window = s.window) (hclean : t.Clean) :
    t.Faces ws :=
  ⟨hreach.plain h.plain, hclean, hwindow ▸ h.shows⟩

/-- A statement was given up because no level was left. -/
def GaveUp (s : Session) : Prop := ∃ d ∈ s.errors.toList, d.fault = .tooManyLevels

theorem GaveUp.of_reaches (h : s.GaveUp) (hreach : Reaches c s t) : t.GaveUp := by
  obtain ⟨d, hd, hfault⟩ := h
  exact ⟨d, hreach.errors_prefix.subset hd, hfault⟩

end Session

open Session

/-- No level is left now, or none was left for a statement before. -/
def Outcome.GivesUp {α : Type} : Outcome α → Prop
  | .ok _ t => t.GaveUp
  | .fault d t => d.fault = .tooManyLevels ∨ t.GaveUp
  | .exhausted => False

/-- The outcome is good, or there was a lack of levels, or of rounds. -/
inductive Outcome.Expected {α : Type} (lack : Prop) (good : α → Session → Prop) : Outcome α → Prop where
  | ok {a : α} {t : Session} (h : good a t) : Expected lack good (.ok a t)
  | givesUp {o : Outcome α} (h : o.GivesUp) (hlack : lack) : Expected lack good o
  | exhausted : Expected lack good .exhausted

namespace Parse

variable {α β : Type} {c : Settings} {s t : Session} {p : Parse α} {f : α → Parse β} {lack lack' : Prop}

theorem givesUp_run {good : α → Session → Prop} (p : Parse α) (h : s.GaveUp) (hlack : lack) : (p.run c s).Expected lack good := by
  cases hrun : p.run c s with
  | ok => exact .givesUp (h.of_reaches (reaches hrun)) hlack
  | fault => exact .givesUp (.inr (h.of_reaches (reaches_of_fault hrun))) hlack
  | exhausted => exact .exhausted

section Expected

variable {good : α → Session → Prop} {goal : β → Session → Prop} (hp : (p.run c s).Expected lack good)

include hp

theorem expected_bind (hf : ∀ a t, good a t → ((f a).run c t).Expected lack goal) :
    ((p >>= f).run c s).Expected lack goal := by
  rw [run_bind]
  cases hrun : p.run c s with
  | exhausted => exact .exhausted
  | ok a t =>
    rw [hrun] at hp
    cases hp with
    | ok h => exact hf a t h
    | givesUp h hlack => exact givesUp_run (f a) h hlack
  | fault =>
    rw [hrun] at hp
    cases hp with
    | givesUp h hlack => exact .givesUp h hlack

theorem expected_attempt : ((attempt p).run c s).Expected lack fun r t =>
    (∃ a, r = .ok a ∧ good a t) ∨ ∃ d, r = .error d ∧ d.fault = .tooManyLevels ∧ lack := by
  unfold attempt
  dsimp only
  cases hrun : p.run c s with
  | exhausted => exact .exhausted
  | ok a =>
    rw [hrun] at hp
    cases hp with
    | ok h => exact .ok (.inl ⟨a, rfl, h⟩)
    | givesUp h hlack => exact .givesUp h hlack
  | fault d =>
    rw [hrun] at hp
    cases hp with
    | givesUp h hlack =>
      obtain hfault | hgave := h
      · exact .ok (.inr ⟨d, rfl, hfault, hlack⟩)
      · exact .givesUp hgave hlack

end Expected

variable {good good' : α → Prop} {goal : β → Prop} {first second : Spelling} {ws rest out : List Spelling}
  {terminal : Terminal} {id read : Identifier}

/-- Facing the tokens `ws`, the parser gives something good and faces `rest`, unless levels are lacking, for the reason
`lack`, or rounds. -/
def Yields (c : Settings) (lack : Prop) (ws : List Spelling) (p : Parse α) (good : α → Prop) (rest : List Spelling) : Prop :=
  ∀ s, s.Faces ws → (p.run c s).Expected lack fun a t => good a ∧ t.Faces rest

/-- The parser gives `a` again, up to what `bare` forgets. -/
def Regains (c : Settings) (lack : Prop) (ws : List Spelling) (p : Parse α) (bare : α → β) (a : α) (rest : List Spelling) : Prop :=
  Yields c lack ws p (fun read => bare read = bare a) rest

/-- The same of what may be absent. -/
def Finds (c : Settings) (lack : Prop) (ws : List Spelling) (p : Parse (Option α)) (bare : α → β) (a : α)
    (rest : List Spelling) : Prop :=
  Yields c lack ws p (fun r => ∃ read, r = some read ∧ bare read = bare a) rest

/-- The parser always gives something, keeps the tokens and records no syntax fault. -/
class Quiet (p : Parse α) : Prop where
  quiet : ∀ c s, s.Clean → ∃ a t, p.run c s = .ok a t ∧ t.window = s.window ∧ t.Clean

namespace Yields

theorem pure {a : α} (h : good a) : Yields c lack ws (pure a) good ws := fun _ hs => .ok ⟨h, hs⟩

theorem tooManyLevels (hlack : lack) : Yields c lack ws (tooManyLevels : Parse α) good rest :=
  fun _ _ => .givesUp (.inl rfl) hlack

theorem exhausted : Yields c lack ws (exhausted : Parse α) good rest := fun _ _ => .exhausted

theorem mono (hp : Yields c lack ws p good rest) (hlack : lack → lack') (hgood : ∀ a, good a → good' a) :
    Yields c lack' ws p good' rest := by
  intro s hs
  have hp := hp s hs
  generalize p.run c s = o at hp ⊢
  cases hp with
  | ok h => exact .ok ⟨hgood _ h.1, h.2⟩
  | givesUp h hreason => exact .givesUp h (hlack hreason)
  | exhausted => exact .exhausted

theorem weaken (hp : Yields c lack ws p good rest) (hlack : lack → lack') : Yields c lack' ws p good rest :=
  hp.mono hlack fun _ h => h

theorem imp (hp : Yields c lack ws p good rest) (hgood : ∀ a, good a → good' a) : Yields c lack ws p good' rest :=
  hp.mono (fun h => h) hgood

theorem bind (hp : Yields c lack ws p good rest) (hf : ∀ a, good a → Yields c lack rest (f a) goal out) :
    Yields c lack ws (p >>= f) goal out :=
  fun s hs => expected_bind (hp s hs) fun a t h => hf a h.1 t h.2

theorem step (hp : Yields c lack ws p good rest) (hlack : lack → lack')
    (hf : ∀ a, good a → Yields c lack' rest (f a) goal out) : Yields c lack' ws (p >>= f) goal out :=
  (hp.weaken hlack).bind hf

theorem map {g : α → β} (hp : Yields c lack ws p good rest) (hgood : ∀ a, good a → goal (g a)) :
    Yields c lack ws (g <$> p) goal rest := by
  rw [map_eq_pure_bind]
  exact hp.bind fun a ha => .pure (hgood a ha)

theorem quiet [hp : Quiet p] (hf : ∀ a, Yields c lack ws (f a) goal out) : Yields c lack ws (p >>= f) goal out := by
  intro s hs
  obtain ⟨a, t, hrun, hwindow, hclean⟩ := hp.quiet c s hs.clean
  rw [run_bind, hrun]
  exact hf a t (hs.of_window (reaches hrun) hwindow hclean)

/-! ### Tests -/

theorem yes {P : Prop} [Decidable P] {q : Parse α} (hP : P) (hp : Yields c lack ws p good rest) :
    Yields c lack ws (if P then p else q) good rest := by
  rwa [if_pos hP]

theorem no {b : Bool} {q : Parse α} (hb : b = false) (hq : Yields c lack ws q good rest) :
    Yields c lack ws (if b = true then p else q) good rest := by
  rwa [hb]

theorem settings {g : Settings → Parse β} (h : Yields c lack ws (g c) goal out) : Yields c lack ws (settings >>= g) goal out := h

theorem newlines {g : Bool → Parse β} (h : Yields c lack ws (g false) goal out) : Yields c lack ws (newlines >>= g) goal out := by
  intro s hs
  have h := h s hs
  rwa [← hs.shows.newlines] at h

theorem token {g : Token → Parse β} (h : ∀ span, Yields c lack (first :: rest) (g (first.at span)) goal out) :
    Yields c lack (first :: rest) (token >>= g) goal out := by
  intro s hs
  have h := h s.window.token.span s hs
  rwa [← hs.token] at h

theorem lookahead {g : Token → Parse β} (hfirst : first.token.isEof = false)
    (h : ∀ span, Yields c lack (first :: second :: rest) (g (second.at span)) goal out) :
    Yields c lack (first :: second :: rest) (lookahead >>= g) goal out := by
  intro s hs
  have h := h s.window.lookahead.span s hs
  rwa [← hs.shows.lookahead_spelling hfirst] at h

end Yields

/-! ### Moving over tokens -/

theorem yields_advance (hfirst : first.token.isEof = false) : Yields c lack (first :: rest) advance (fun _ => True) rest := by
  intro s hs
  obtain ⟨hnone, hshows⟩ := hs.shows.next hfirst
  have hrun : advance.run c s = .ok () { s with window := s.window.next.2 } := by
    rw [run_advance, hnone, hs.plain.resume]
  rw [hrun]
  exact .ok ⟨trivial, (reaches hrun).plain hs.plain, hs.clean, hshows⟩

theorem yields_setNewlines : Yields c lack ws (setNewlines false) (fun _ => True) ws := by
  intro s hs
  have hreport : s.report [] = s := by simp [Session.report]
  rw [run_setNewlines, hs.shows.setNewlines, Option.toList_none, hreport, hs.plain.resume]
  exact .ok ⟨trivial, hs⟩

namespace Yields

variable {f : Unit → Parse β}

theorem advance (hfirst : first.token.isEof = false) (hf : Yields c lack rest (f ()) goal out) :
    Yields c lack (first :: rest) (advance >>= f) goal out :=
  (yields_advance hfirst).bind fun _ _ => hf

theorem consume {f : Bool → Parse β} (hkind : first.kind = terminal.kind) (hf : Yields c lack rest (f true) goal out) :
    Yields c lack (first :: rest) (consume terminal >>= f) goal out := by
  have hsolid : first.token.isEof = false := by
    rw [Token.isEof, Spelling.token, Spelling.at, hkind]
    cases terminal <;> rfl
  rw [Parse.consume, bind_assoc]
  refine .token fun span => ?_
  rw [if_pos (Token.is_iff_kind.mpr hkind), bind_assoc]
  exact .advance hsolid hf

theorem consume_other {f : Bool → Parse β} (hother : first.token.is terminal = false)
    (hf : Yields c lack (first :: rest) (f false) goal out) :
    Yields c lack (first :: rest) (Parse.consume terminal >>= f) goal out := by
  rw [Parse.consume, bind_assoc]
  refine .token fun span => ?_
  have hspan : (first.at span).is terminal = false := by
    cases terminal <;> exact hother
  rwa [hspan]

theorem expect (hkind : first.kind = terminal.kind) (hf : Yields c lack rest (f ()) goal out) :
    Yields c lack (first :: rest) (expect terminal >>= f) goal out := by
  rw [Parse.expect, bind_assoc]
  exact .consume hkind hf

theorem openBracket {bracket : Symbol} {f : Bool → Parse β} (hf : Yields c lack rest (f false) goal out) :
    Yields c lack (Render.sign bracket :: rest) (openBracket bracket >>= f) goal out := by
  rw [Parse.openBracket]
  simp only [bind_assoc, pure_bind]
  exact .newlines (yields_setNewlines.bind fun _ _ => .expect rfl hf)

theorem closeBracket {bracket : Terminal} (hkind : first.kind = bracket.kind) (hf : Yields c lack rest (f ()) goal out) :
    Yields c lack (first :: rest) (closeBracket bracket false >>= f) goal out := by
  rw [Parse.closeBracket, bind_assoc]
  exact yields_setNewlines.bind fun _ _ => .expect hkind hf

end Yields

theorem regains_identifier : Regains c lack (Render.name id :: rest) identifier Bare.name id rest :=
  .token fun _ => .advance rfl (.pure rfl)

/-! ### Parsers that keep the tokens -/

namespace Quiet

theorem of_run {value : Session → α} {next : Session → Session} (hrun : ∀ c s, p.run c s = .ok (value s) (next s))
    (hwindow : ∀ s, (next s).window = s.window) (herrors : ∀ s, (next s).errors = s.errors) : Quiet p where
  quiet c s hclean := ⟨value s, next s, hrun c s, hwindow s, by rw [Clean, herrors]; exact hclean⟩

theorem of_report {q : Parse Unit} (next : Session → Session) (ds : Session → List Diagnostic)
    (hrun : ∀ c s, q.run c s = .ok () ((next s).report (ds s))) (hwindow : ∀ s, (next s).window = s.window)
    (herrors : ∀ s, (next s).errors = s.errors) (hflow : ∀ s, ∀ d ∈ ds s, d.fault.isFlow = true) : Quiet q where
  quiet c s hclean := by
    refine ⟨(), _, hrun c s, hwindow s, fun d hd => ?_⟩
    have hmem : d ∈ s.errors.toList ++ ds s := by
      rw [← herrors]
      simpa [Session.report] using hd
    exact (mem_append.mp hmem).elim (hclean d) (hflow s d)

instance (a : α) : Quiet (pure a) := .of_run (fun _ _ => rfl) (fun _ => rfl) fun _ => rfl

instance (view : Session → α) : Quiet (look view) := .of_run (fun _ _ => rfl) (fun _ => rfl) fun _ => rfl

instance (start : Position) : Quiet (spanFrom start) := inferInstanceAs (Quiet (look _))

instance : Quiet mark := .of_run (fun _ _ => rfl) (fun _ => rfl) fun _ => rfl

instance : Quiet markAgain := .of_run (fun _ _ => rfl) (fun _ => rfl) fun _ => rfl

instance : Quiet unmark := .of_run (fun _ _ => rfl) (fun _ => rfl) fun _ => rfl

instance : Quiet finish := .of_run (fun _ _ => rfl) (fun _ => rfl) fun _ => rfl

instance (isLoop : Bool) : Quiet (openBlock isLoop) := .of_run (fun _ _ => rfl) (fun _ => rfl) fun _ => rfl

instance (name : String) : Quiet (addLocal name) := .of_run (fun _ _ => rfl) (fun _ => rfl) fun _ => rfl

instance (target : String) (span : Span) : Quiet (addGoto target span) :=
  .of_run (fun _ _ => rfl) (fun _ => rfl) fun _ => rfl

instance : Quiet allowVararg := .of_run (fun _ _ => rfl) (fun _ => rfl) fun _ => rfl

instance : Quiet enterFunction := .of_run (fun _ _ => rfl) (fun _ => rfl) fun _ => rfl

instance : Quiet openScope := .of_run (fun _ _ => rfl) (fun _ => rfl) fun _ => rfl

instance : Quiet closeScope := .of_run (fun _ _ => rfl) (fun _ => rfl) fun _ => rfl

instance : Quiet leaveFunction := by
  refine .of_run (fun _ _ => rfl) (fun s => ?_) fun s => ?_ <;> unfold Session.leaveFunction <;> split <;> rfl

instance (name : String) : Quiet (addName name) := by
  refine .of_run (fun _ _ => rfl) (fun s => ?_) fun s => ?_ <;> unfold Session.addName <;> split <;> rfl

instance (isMethod : Bool) : Quiet (Grammar.declareSelf isMethod) := by
  unfold Grammar.declareSelf
  split <;> infer_instance

instance : Quiet closeBlock := by
  refine .of_report _ _ (fun _ _ => rfl) (fun _ => rfl) (fun _ => rfl) fun s d hd => ?_
  obtain ⟨g, -, rfl⟩ := mem_map.mp hd
  rfl

instance (name : String) (span : Span) : Quiet (addLabel name span) := by
  refine .of_report _ _ (fun _ _ => rfl) (fun _ => rfl) (fun _ => rfl) fun s d hd => ?_
  have hsome := Option.mem_toList.mp hd
  split at hsome
  · cases hsome
  · dsimp only at hsome
    split at hsome
    · cases hsome
      rfl
    · cases hsome

instance : Quiet raiseDeferred := by
  refine .of_report _ _ (fun _ _ => rfl) (fun _ => rfl) (fun _ => rfl) fun s d hd => ?_
  split at hd
  · cases hd
  · obtain ⟨g, -, rfl⟩ := mem_map.mp hd
    rfl

theorem report {d : Diagnostic} (h : d.fault.isFlow = true) : Quiet (report [d]) := by
  refine .of_report id _ (fun _ _ => rfl) (fun _ => rfl) (fun _ => rfl) fun _ e he => ?_
  rw [mem_singleton.mp he, h]

instance {g : α → Parse β} [hp : Quiet p] [hg : ∀ a, Quiet (g a)] : Quiet (p >>= g) where
  quiet c s hclean := by
    obtain ⟨a, t, hrun, hwindow, ht⟩ := hp.quiet c s hclean
    obtain ⟨b, u, hrun', hwindow', hu⟩ := (hg a).quiet c t ht
    exact ⟨b, u, run_bind_eq_ok.mpr ⟨a, t, hrun, hrun'⟩, hwindow'.trans hwindow, hu⟩

instance {P : Prop} [Decidable P] {q : Parse α} [hp : Quiet p] [hq : Quiet q] : Quiet (if P then p else q) := by
  split
  · exact hp
  · exact hq

instance : Quiet token := inferInstanceAs (Quiet (look _))

instance : Quiet lookahead := inferInstanceAs (Quiet (look _))

instance : Quiet previous := inferInstanceAs (Quiet (look _))

instance : Quiet checkpoint := inferInstanceAs (Quiet (look _))

instance (keyword : Span) : Quiet (Grammar.checkBreak keyword) := by
  have hreport : ∀ t : Token, Quiet (Parse.report [{ fault := .noLoopToBreak t.text, span := keyword }]) :=
    fun t => report rfl
  unfold Grammar.checkBreak
  infer_instance

instance (t : Token) : Quiet (Grammar.checkVararg t) := by
  have hreport : Quiet (Parse.report [{ fault := .varargNotAllowed t.text, span := t.span }]) := report rfl
  unfold Grammar.checkVararg
  infer_instance

end Quiet

theorem Yields.enter {f : Unit → Parse β} (hfirst : first.token.isEof = false) (hf : Yields c lack rest (f ()) goal out) :
    Yields c lack (first :: rest) (mark >>= fun _ => Parse.advance >>= f) goal out :=
  .quiet fun _ => .advance hfirst hf

/-! ### Names -/

theorem regains_reference (hread : Bare.name read = Bare.name id) : Regains c lack ws (reference read) Bare.name id ws := by
  intro s hs
  have hrun : (reference read).run c s = .ok { read with isLocal := s.visible.contains read.name } (s.addGlobal read.name) := rfl
  rw [hrun]
  refine .ok ⟨hread, hs.of_window (reaches hrun) ?_ ?_⟩
  · unfold Session.addGlobal
    split <;> rfl
  · unfold Session.addGlobal
    split <;> exact hs.clean

theorem regains_declare (hread : Bare.name read = Bare.name id) : Regains c lack ws (declare read) Bare.name id ws :=
  .quiet fun _ => .pure hread

theorem regains_declareInFlow (hread : Bare.name read = Bare.name id) :
    Regains c lack ws (declareInFlow read) Bare.name id ws :=
  .quiet fun _ => regains_declare hread

/-! ### Loops -/

section Rounds

variable {step : Parse (List α × Bool)} {good : List α → Prop} {rounds : Nat}

theorem Yields.last (hstep : Yields c lack ws step (fun r => good r.1 ∧ r.2 = false) rest) :
    Yields c lack ws (collectRounds step (rounds + 1)) good rest := by
  refine hstep.bind ?_
  rintro ⟨found, _⟩ ⟨hfound, rfl⟩
  exact .pure hfound

theorem Yields.more (mid : List Spelling) (first : List α → Prop)
    (hstep : Yields c lack ws step (fun r => first r.1 ∧ r.2 = true) mid)
    (hmore : ∀ found, first found → Yields c lack mid (collectRounds step rounds) (fun more => good (found ++ more)) rest) :
    Yields c lack ws (collectRounds step (rounds + 1)) good rest := by
  refine hstep.bind ?_
  rintro ⟨found, _⟩ ⟨hfound, rfl⟩
  exact (hmore found hfound).bind fun _ => .pure

theorem Yields.collect (h : Yields c lack ws (collectRounds step c.rounds) good rest) :
    Yields c lack ws (collect step) good rest := h

end Rounds

/-- A loop that faces the tokens of some items gives these items. Each item is followed by what `follows` allows. -/
theorem regains_many {step : Parse (Option α)} {tokens : α → List Spelling} (bare : α → α) (follows : List Spelling → Prop)
    (items : List α) (hitems : ∀ a ∈ items, ∀ rest, follows (tokens a ++ rest)) (hrest : follows rest)
    (hstep : ∀ a ∈ items, ∀ rest, follows rest → Finds c lack (tokens a ++ rest) step bare a rest)
    (hstop : Yields c lack rest step (· = none) rest) :
    Regains c lack (items.flatMap tokens ++ rest) (many step) (map bare) items rest := by
  refine .collect ?_
  generalize c.rounds = rounds
  induction rounds generalizing items with
  | zero => exact .exhausted
  | succ rounds ih =>
    cases items with
    | nil =>
      refine .last (hstop.bind ?_)
      rintro _ rfl
      exact .pure ⟨rfl, rfl⟩
    | cons a items =>
      rw [flatMap_cons, append_assoc]
      have hfollows : follows (items.flatMap tokens ++ rest) := by
        cases items with
        | nil => exact hrest
        | cons b =>
          rw [flatMap_cons, append_assoc]
          exact hitems b (by simp) _
      refine .more (items.flatMap tokens ++ rest) (fun found => found.map bare = [bare a]) ((hstep a mem_cons_self _ hfollows).bind ?_) ?_
      · rintro _ ⟨read, rfl, hread⟩
        exact .pure ⟨congrArg (fun b => [b]) hread, rfl⟩
      · intro found hfound
        refine (ih items (fun b hb => hitems b (mem_cons_of_mem _ hb)) fun b hb => hstep b (mem_cons_of_mem _ hb)).imp
          fun more hmore => ?_
        rw [map_append, hfound, hmore, map_cons, singleton_append]

end Parse

end CartLua
