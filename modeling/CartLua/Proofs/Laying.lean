import CartLua.Proofs.GrammarDerivation
import CartLua.Proofs.Layout
/-!
# Where parsers read

The tokens of a window stand one behind the other, and a window only moves on. So what a parser reads stands between the
token that is current where it starts and the token that it has passed last. `Lays` says so of two sessions; it is put
together along the run, one lemma for each parser. The markers of the session keep the starts of the constructs that are
still open.
-/

namespace CartLua

open Position

/-! ### Tokens in order -/

theorem Cursor.before_skip (c : Cursor) (n : Nat) : c.position.Before (c.skip n).position := by
  refine ⟨(skip_file c n).symm, ?_⟩
  rw [skip_index]
  exact Nat.le_add_right _ _

theorem Cursor.nextToken_before (mode : Encoding) (c : Cursor) :
    c.position.Before (c.nextToken mode).1.span.start ∧
      (c.nextToken mode).1.span.start.Before (c.nextToken mode).1.span.stop ∧
      (c.nextToken mode).1.span.stop.Before (c.nextToken mode).2.position := by
  induction c using Cursor.scan_induction mode with
  | done c eof next h =>
    obtain ⟨-, rfl, n, rfl⟩ := Cursor.scan_done h
    rw [nextToken_of_done h]
    exact ⟨c.before_skip n, .refl _, .refl _⟩
  | token c t next h _ =>
    obtain ⟨n, -, -, -, -, lexeme, -, -, -, -, rfl, hspan⟩ := Cursor.scan_token h
    rw [nextToken_of_token h, hspan]
    exact ⟨c.before_skip n, (c.skip n).before_skip _, .refl _⟩
  | fault c d next h ih =>
    obtain ⟨n, rfl⟩ := Cursor.scan_fault h
    rw [nextToken_of_fault h]
    exact ⟨(c.before_skip n).trans ih.1, ih.2⟩

namespace Window

variable {w : Window}

/-- The tokens of the window stand one behind the other, before the cursor. -/
structure Ordered (w : Window) : Prop where
  previous : w.previous.span.stop.Before w.token.span.start
  token : w.token.span.start.Before w.token.span.stop
  lookahead : w.token.span.stop.Before w.lookahead.span.start
  ahead : w.lookahead.span.start.Before w.lookahead.span.stop
  cursor : w.lookahead.span.stop.Before w.cursor.position

theorem Ordered.fetch (hprevious : w.previous.span.stop.Before w.token.span.start)
    (htoken : w.token.span.start.Before w.token.span.stop) (hcursor : w.token.span.stop.Before w.cursor.position) :
    w.fetch.2.Ordered := by
  obtain ⟨hlookahead, hahead, hbehind⟩ := w.cursor.nextToken_before w.encoding
  rw [fetch_eq]
  exact ⟨hprevious, htoken, hcursor.trans hlookahead, hahead, hbehind⟩

theorem Ordered.next (h : w.Ordered) : w.next.2.Ordered := by
  unfold Window.next
  split
  · exact ⟨.refl _, .refl _, h.lookahead, h.ahead, h.cursor⟩
  · exact Ordered.fetch h.lookahead h.ahead h.cursor

theorem Ordered.setNewlines (h : w.Ordered) (shown : Bool) : (w.setNewlines shown).2.Ordered := by
  obtain hset | ⟨-, -, hset⟩ := w.setNewlines_cases shown
  · rw [hset]
    exact ⟨h.previous, h.token, h.lookahead, h.ahead, h.cursor⟩
  · rw [hset]
    exact Ordered.fetch (h.previous.trans (h.token.trans h.lookahead)) h.ahead h.cursor

theorem start_ordered (mode : Encoding) (text : String) (file : FileId) : (ofText mode text file).start.2.Ordered := by
  have hfile : (ofText mode text file).cursor.position.file = file := Cartridge.code_file text.toList file
  have hfirst : (ofText mode text file).fetch.2.Ordered := Ordered.fetch (.refl _) (.refl _) ⟨hfile.symm, Nat.zero_le _⟩
  exact hfirst.next

theorem Ordered.next_before (h : w.Ordered) : w.token.span.start.Before w.next.2.token.span.start := by
  rw [next_token]
  split
  · exact h.token
  · exact h.token.trans h.lookahead

theorem Ordered.setNewlines_before (h : w.Ordered) (shown : Bool) :
    w.token.span.start.Before (w.setNewlines shown).2.token.span.start := by
  obtain hset | ⟨-, -, hset⟩ := w.setNewlines_cases shown
  · rw [hset]
    exact .refl _
  · rw [hset, fetch_token]
    exact h.token.trans h.lookahead

end Window

variable {v : Session}

namespace Session

variable {c : Settings} {s t u : Session} {xs ys : List Layout}

/-- A session without include lines whose tokens stand one behind the other. -/
structure Ordered (s : Session) : Prop where
  plain : s.Plain
  window : s.window.Ordered

theorem Ordered.behind_before_here (h : s.Ordered) : s.behind.Before s.here := h.window.previous

theorem Act.ordered (h : Act c s t) (hs : s.Ordered) : t.Ordered ∧ s.here.Before t.here ∧ s.behind.Before t.behind := by
  unfold here behind
  have hplain := h.plain hs.plain
  obtain ⟨hwindow, -, -⟩ | rfl | ⟨shown, rfl⟩ | ⟨hkind, rfl⟩ := h.cases_window
  · rw [hwindow]
    exact ⟨⟨hplain, hwindow ▸ hs.window⟩, .refl _, .refl _⟩
  · rw [hs.plain.resume] at hplain ⊢
    refine ⟨⟨hplain, hs.window.next⟩, hs.window.next_before, ?_⟩
    rw [Window.next_previous]
    exact hs.window.previous.trans hs.window.token
  · rw [hs.plain.resume] at hplain ⊢
    refine ⟨⟨hplain, hs.window.setNewlines shown⟩, hs.window.setNewlines_before shown, ?_⟩
    rw [Window.setNewlines_previous]
    exact .refl _
  · have hdirective := hs.plain.window.tokenKind
    simp [Token.isDirective, hkind] at hdirective

theorem Reaches.ordered (h : Reaches c s t) (hs : s.Ordered) :
    t.Ordered ∧ s.here.Before t.here ∧ s.behind.Before t.behind := by
  induction h with
  | refl => exact ⟨hs, .refl _, .refl _⟩
  | act _ last ih =>
    obtain ⟨ht, hhere, hbehind⟩ := ih
    obtain ⟨hu, hhere', hbehind'⟩ := last.ordered ht
    exact ⟨hu, hhere.trans hhere', hbehind.trans hbehind'⟩

/-- From `s` to `t` the run passes a token. -/
structure Passes (c : Settings) (s t : Session) : Prop where
  reaches : Reaches c s t
  before : s.Ordered → s.here.Before t.behind

theorem Passes.left (hst : Reaches c s t) (htu : Passes c t u) : Passes c s u := by
  refine ⟨hst.trans htu.reaches, fun hs => ?_⟩
  obtain ⟨ht, hhere, -⟩ := hst.ordered hs
  exact hhere.trans (htu.before ht)

theorem Passes.right (hst : Passes c s t) (htu : Reaches c t u) : Passes c s u := by
  refine ⟨hst.reaches.trans htu, fun hs => ?_⟩
  obtain ⟨ht, -, -⟩ := hst.reaches.ordered hs
  exact (hst.before hs).trans (htu.ordered ht).2.2

/-- The run from `s` to `t` reads `xs`, and leaves the open constructs alone. -/
structure Lays (c : Settings) (s t : Session) (xs : List Layout) : Prop where
  reaches : Reaches c s t
  markers : t.markers.starts = s.markers.starts
  laid : s.Ordered → Layout.Laid s.here t.behind xs

namespace Lays

theorem silent (hreach : Reaches c s t) (hmarkers : t.markers.starts = s.markers.starts) : Lays c s t [] :=
  ⟨hreach, hmarkers, fun _ => .nil⟩

theorem refl (s : Session) : Lays c s s [] := silent .refl rfl

theorem trans (hst : Lays c s t xs) (htu : Lays c t u ys) : Lays c s u (xs ++ ys) := by
  refine ⟨hst.reaches.trans htu.reaches, htu.markers.trans hst.markers, fun hs => ?_⟩
  obtain ⟨ht, hhere, -⟩ := hst.reaches.ordered hs
  exact (hst.laid hs).append (htu.laid ht) hhere ht.behind_before_here (htu.reaches.ordered ht).2.2

theorem after (hst : Lays c s t xs) (htu : Lays c t u []) : Lays c s u xs := by
  have htrans := hst.trans htu
  rwa [List.append_nil] at htrans

variable {x : Layout}

theorem passes (h : Lays c s t (x :: xs)) : Passes c s t := by
  refine ⟨h.reaches, fun hs => ?_⟩
  obtain ⟨ht, hhere, -⟩ := h.reaches.ordered hs
  have hmem : x ∈ x :: xs := List.mem_cons_self ..
  have hstart := ((h.laid hs).from_lo x hmem).2
  have hproper := ((h.laid hs).nested x hmem).proper
  have hstop := ((h.laid hs).to_hi x hmem).2
  exact ⟨hhere.1.trans ht.behind_before_here.1.symm, hstart.trans (hproper.trans hstop)⟩

variable {span : Span}

theorem node (h : Lays c s t xs) (hstart : s.Ordered → s.here.Before span.start)
    (hproper : s.Ordered → span.start.Before span.stop) (hstop : s.Ordered → span.stop.Before t.behind)
    (hlaid : s.Ordered → Layout.Laid span.start span.stop xs) : Lays c s t [.node span xs] :=
  ⟨h.reaches, h.markers, fun hs => .singleton ((hlaid hs).node (hproper hs)) (hstart hs) (hstop hs)⟩

theorem spanned (h : Lays c s t xs) (hpasses : Passes c s t) : Lays c s t [.node ⟨s.here, t.behind⟩ xs] :=
  h.node (fun _ => .refl _) hpasses.before (fun _ => .refl _) h.laid

theorem wrapped (h : Lays c s t [x]) : Lays c s t [.node x.span [x]] := by
  have hmem : x ∈ [x] := List.mem_singleton_self x
  refine h.node (fun hs => (h.laid hs).from_lo x hmem) (fun hs => ?_) (fun hs => (h.laid hs).to_hi x hmem) (fun hs => ?_)
  · have hlo := (h.laid hs).from_lo x hmem
    have hhi := (h.laid hs).to_hi x hmem
    have hpassed := h.passes.before hs
    exact ⟨hlo.1.symm.trans (hpassed.1.trans hhi.1.symm), ((h.laid hs).nested x hmem).proper⟩
  · exact .singleton ((h.laid hs).nested x hmem) (.refl _) (.refl _)

theorem closed (hreach : Reaches c s u) (hmarkers : u.markers.starts = s.here :: s.markers.starts)
    (h : Lays c u v xs) (hpasses : Passes c s v) (hfinish : Parse.finish.run c v = .ok span t) :
    Lays c s t [.node span xs] ∧ span.start = s.here := by
  have hstarts := h.markers.trans hmarkers
  have hresult : v.markers.finish v.behind = (⟨s.here, v.behind⟩, ⟨s.markers.starts⟩) := by
    unfold MarkerStack.finish
    rw [hstarts]
  have hreach' := (hreach.trans h.reaches).trans (Parse.reaches hfinish)
  rw [Parse.run_finish] at hfinish
  obtain ⟨rfl, rfl⟩ := Outcome.ok.inj hfinish
  have hspan : (v.markers.finish v.window.previous.span.stop).1 = ⟨s.here, v.behind⟩ := congrArg Prod.fst hresult
  rw [hspan]
  refine ⟨⟨hreach', congrArg (·.2.starts) hresult, fun hs => ?_⟩, rfl⟩
  obtain ⟨hu, hhere, -⟩ := hreach.ordered hs
  have hlaid := (h.laid hu).mono hhere (.refl _)
  exact .singleton (hlaid.node (hpasses.before hs)) (.refl _) (.refl _)

theorem marked {a : Unit} (hmark : Parse.mark.run c s = .ok a u) (h : Lays c u v xs)
    (hpasses : Passes c u v) (hfinish : Parse.finish.run c v = .ok span t) :
    Lays c s t [.node span xs] ∧ span.start = s.here := by
  have hreach := Parse.reaches hmark
  have hmarkers : u.markers.starts = s.here :: s.markers.starts := by
    cases hmark
    rfl
  exact closed hreach hmarkers h (hpasses.left hreach) hfinish

end Lays

end Session

namespace Parse

open Session

variable {α β : Type} {c : Settings} {s t u : Session} {a : α} {terminal : Terminal}

/-! ### Parsers that read nothing of the tree -/

/-- The parser leaves the open constructs alone. -/
abbrev Level (c : Settings) (p : Parse α) : Prop := Leaves c (·.markers.starts) p

namespace Level

instance (p : Parse α) [hp : Balanced c p] : Level c p where
  unchanged h := congrArg Nesting.markers (hp.kept h).nesting

instance (shown : Bool) : Level c (setNewlines shown) := .of_ok _ _ (fun _ => rfl) fun _ => rfl

instance (isLoop : Bool) : Level c (openBlock isLoop) := .of_ok _ _ (fun _ => rfl) fun _ => rfl

instance : Level c closeBlock := .of_ok _ _ (fun _ => rfl) fun _ => rfl

instance : Level c openScope := .of_ok _ _ (fun _ => rfl) fun _ => rfl

instance : Level c closeScope := .of_ok _ _ (fun _ => rfl) fun _ => rfl

instance : Level c enterFunction := .of_ok _ _ (fun _ => rfl) fun _ => rfl

instance : Level c leaveFunction := by
  refine .of_ok _ _ (fun _ => rfl) fun s => ?_
  dsimp only [Session.leaveFunction]
  split <;> rfl

instance (bracket : Symbol) : Level c (openBracket bracket) := by
  unfold openBracket
  infer_instance

instance (bracket : Terminal) (outer : Bool) : Level c (closeBracket bracket outer) := by
  unfold closeBracket
  infer_instance

end Level

theorem lays_nothing {p : Parse α} [hp : Level c p] (h : p.run c s = .ok a t) : Lays c s t [] :=
  .silent (reaches h) (hp.unchanged h)

/-! ### Tokens -/

theorem previous_of_advance {a : Unit} (hs : s.Plain) (h : advance.run c s = .ok a t) :
    t.window.previous = s.window.token := by
  rw [run_advance] at h
  split at h
  · cases h
    rw [hs.resume]
    exact Window.next_previous _
  · cases h

theorem lays_advance {a : Unit} (h : advance.run c s = .ok a t) : Lays c s t [.leaf s.window.token.span] := by
  have hnothing : Lays c s t [] := lays_nothing h
  refine hnothing.node (fun _ => .refl _) (fun hs => hs.window.token) (fun hs => ?_) (fun _ => .nil)
  unfold behind
  rw [previous_of_advance hs.plain h]
  exact .refl _

theorem passes_advance {a : Unit} (h : advance.run c s = .ok a t) : Passes c s t := (lays_advance h).passes

theorem lays_construct {xs : List Layout} (hopen : Opens c terminal s u) (h : Lays c u v xs)
    (hfinish : finish.run c v = .ok span t) : Lays c s t [.node span xs] ∧ span.start = s.here := by
  obtain ⟨-, w, hmark, hadvance⟩ := hopen
  exact Lays.marked hmark ((lays_nothing hadvance).trans h) ((passes_advance hadvance).right h.reaches) hfinish

theorem passes_consume (h : (consume terminal).run c s = .ok true t) : Passes c s t :=
  passes_advance (advance_of_consume h)

theorem passes_expect {a : Unit} (h : (expect terminal).run c s = .ok a t) : Passes c s t := by
  obtain ⟨_ | _, u, hconsume, ⟨⟩⟩ := run_bind_eq_ok.mp h
  exact passes_consume hconsume

theorem passes_openBracket {bracket : Symbol} {outer : Bool} (h : (openBracket bracket).run c s = .ok outer t) :
    Passes c s t := by
  simp only [openBracket, run_bind_eq_ok, run_newlines, run_pure, Outcome.ok.injEq] at h
  obtain ⟨_, _, ⟨rfl, rfl⟩, _, _, hset, _, _, hexpect, -, rfl⟩ := h
  exact .left (reaches hset) (passes_expect hexpect)

theorem lays_identifier {id : Identifier} (h : identifier.run c s = .ok id t) : Lays c s t [.identifier id] := by
  obtain ⟨hspan, hadvance⟩ := Grammar.span_identifier h
  rw [Layout.identifier, hspan]
  exact lays_advance hadvance

end Parse

namespace Session.Lays

variable {α : Type} {c : Settings} {s t u : Session} {p : Parse α} [Parse.Level c p] {a : α} {xs : List Layout}

theorem pass (h : Lays c s t xs) (hrun : p.run c t = .ok a u) : Lays c s u xs := h.after (Parse.lays_nothing hrun)

theorem behind (hrun : p.run c s = .ok a t) (h : Lays c t u xs) : Lays c s u xs := (Parse.lays_nothing hrun).trans h

end Session.Lays

end CartLua
