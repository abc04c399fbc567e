import CartLua.Proofs.LayoutIndependence
import CartLua.Proofs.Sequel
/-!
# Documents within documents

A text that stands elsewhere, some lines further down or in another document, has the same layout. So a document that is
entered from another one is read as if it stood alone, up to its end. There the document below goes on, and its window
does not know about the lines of the one that has been left.
-/

namespace CartLua

/-! ### Texts that stand elsewhere -/

/-- The same token some lines further down, perhaps in another document. -/
structure Token.Lowered (lines : Nat) (t t' : Token) : Prop where
  kind : t'.kind = t.kind
  text : t'.text = t.text
  start : t'.span.start.line = t.span.start.line + lines
  stop : t'.span.stop.line = t.span.stop.line + lines

theorem sameLayout_of_lowered {m : Mask} (hm : m.places = false) {lines : Nat} {ts ts' : List Token}
    (h : List.Forall₂ (Token.Lowered lines) ts ts') : SameLayout m ts ts' := by
  induction h with
  | nil => exact ⟨rfl, rfl⟩
  | @cons a a' ts ts' ha hrest ih =>
    refine ⟨?_, ?_⟩
    · rw [List.map_cons, List.map_cons, ih.tokens]
      simp only [Mask.token, ha.kind, ha.text, Mask.span_hidden hm a.span a'.span]
    · cases hrest with
      | nil => rfl
      | @cons b b' ts ts' hb _ =>
        have hgap : decide (a.span.stop.line < b.span.start.line) = decide (a'.span.stop.line < b'.span.start.line) := by
          rw [ha.stop, hb.start]
          simp
        exact congrArg₂ List.cons hgap ih.breaks

theorem Cursor.Shifted.tokens {mode : Encoding} {lines : Nat} {c c' : Cursor} {ts : List Token} (h : Shifted lines c c')
    (hts : c.tokens mode = .ok ts) (hplain : c.Plain mode) :
    ∃ ts', c'.tokens mode = .ok ts' ∧ List.Forall₂ (Token.Lowered lines) ts ts' ∧ c'.Plain mode := by
  induction c, ts, hts using Cursor.tokens_induction generalizing c' with
  | done c eof next hscan =>
    obtain ⟨eof', next', hscan', hkind, htext, hstart, hstop⟩ := h.scan_done hscan
    refine ⟨[eof'], tokens_of_done hscan', .cons ⟨hkind, htext, hstart, hstop⟩ .nil, ?_⟩
    rw [Plain, readable_of_done hscan']
    exact List.forall_mem_nil _
  | token c t next others hscan _ ih =>
    rw [Plain, readable_of_token hscan, List.forall_mem_cons] at hplain
    obtain ⟨hthis, hplain⟩ := hplain
    have hkind : t.kind ≠ .directive := by
      intro hkind
      simp [Token.isDirective, hkind] at hthis
    obtain ⟨t', next', hscan', hkind', htext, hstart, hstop, hnext, -⟩ := h.scan_token hscan (.inr hkind)
    obtain ⟨rest', hrest', hlowered, hplain'⟩ := ih hnext hplain
    refine ⟨t' :: rest', ?_, .cons ⟨hkind', htext, hstart, hstop⟩ hlowered, ?_⟩
    · rw [tokens_of_token hscan', hrest']
      rfl
    · rw [Plain, readable_of_token hscan', List.forall_mem_cons]
      refine ⟨?_, hplain'⟩
      rwa [Token.isDirective, hkind']

/-- The last token, which is the end of the text, stands on a line behind the one before it. -/
def EndsLine (ts : List Token) : Prop := ∀ a b, [a, b] <:+ ts → a.span.stop.line < b.span.start.line

theorem EndsLine.of_suffix {ts rest : List Token} (h : EndsLine ts) (hsuffix : rest <:+ ts) : EndsLine rest :=
  fun a b hlast => h a b (hlast.trans hsuffix)

theorem Window.newlines_of_endsLine {w : Window} {ts : List Token} (hsolid : w.token.isSolid = true) (hts : w.stream = .ok ts)
    (hline : EndsLine ts) (heof : w.next.2.token.isEof = true) : w.next.2.newlines = false := by
  rw [next_newlines]
  by_contra hshown
  have hline' : w.atLineEnd = decide (w.token.span.stop.line < w.lookahead.span.start.line) := by
    rw [atLineEnd_solid hsolid, Bool.eq_true_of_not_eq_false hshown, Bool.true_and]
  cases hthis : w.atLineEnd with
  | true =>
    rw [next_of_atLineEnd hthis] at heof
    cases heof
  | false =>
    rw [next_of_not_atLineEnd hthis, fetch_token] at heof
    rw [stream_eq_map hsolid, ahead, if_pos heof] at hts
    cases hts
    have hbreak := hline _ _ List.suffix_rfl
    rw [hthis] at hline'
    simp [hbreak] at hline'

namespace Session

/-- Where two sessions stand of which the first one reads a document alone and the second one within the document of
`root`. -/
inductive Spliced.Place (mask : Mask) (root : Window) (lineless : Prop) (s s' : Session) : Prop where
  | within (span : Span) (hbelow : s'.suspended = [⟨root, span⟩]) (hopen : s.window.token.isEof = false)
    (hlevel : Window.Level mask s.window s'.window) (hline : ¬lineless → ∀ ts, s.window.stream = .ok ts → EndsLine ts)
  | behind (halone : s'.suspended = []) (heof : s.window.token.isEof = true)
    (hwindow : s'.window = { root with previous := s'.window.previous })
    (hprevious : s.window.previous.isSymbol .rightParen = s'.window.previous.isSymbol .rightParen)
    (hmode : ¬lineless → s.window.newlines = false)

/-- Two sessions at the same place of a document that the second one has entered from another one. -/
structure Spliced (mask : Mask) (root : Window) (lineless : Prop) (s s' : Session) : Prop where
  alone : s.suspended = []
  settled : s.window.Settled
  place : Spliced.Place mask root lineless s s'

namespace Spliced

variable {mask : Mask} {root : Window} {lineless : Prop} {s s' : Session}

theorem ended (h : Spliced mask root lineless s s') (heof : s.window.token.isEof = true) : s.Ended :=
  ⟨h.alone, heof, h.settled.ended heof, h.settled.finished (h.settled.ended heof)⟩

theorem plain (h : Spliced mask root lineless s s') : s.Plain := ⟨h.alone, h.settled.plain⟩

theorem resume {w w' : Window} (halone : s.suspended = []) {span : Span} (hbelow : s'.suspended = [⟨root, span⟩])
    (hlevel : Window.Level mask w w') (hline : ¬lineless → ∀ ts, w.stream = .ok ts → EndsLine ts)
    (hmode : w.token.isEof = true → ¬lineless → w.newlines = false) :
    Spliced mask root lineless (s.resume w) (s'.resume w') := by
  have hresume : s.resume w = { s with window := w } := resume_alone halone w
  rw [hresume]
  refine ⟨halone, hlevel.first, ?_⟩
  have heof' := Mask.isEof_eq hlevel.token
  cases heof : w.token.isEof with
  | false =>
    rw [heof] at heof'
    have hresume' : s'.resume w' = { s' with window := w' } := by
      unfold Session.resume
      rw [hbelow, unwind, if_neg (by simp [← heof']), ← hbelow]
    rw [hresume']
    exact .within span hbelow heof hlevel hline
  | true =>
    rw [heof] at heof'
    have hresume' : s'.resume w' = { s' with window := { root with previous := w'.previous }, suspended := [] } := by
      unfold Session.resume
      rw [hbelow, unwind, if_pos heof'.symm, unwind]
    rw [hresume']
    exact .behind rfl heof rfl hlevel.previous (hmode heof)

end Spliced

end Session

namespace Comparison

open Session

/-- A document that is read alone is compared with the same document within another one. -/
def splice (mask : Mask) (first second : Settings) (root : Window) (lineless : Prop) : Comparison where
  mask := mask
  first := first
  second := second
  lenient := True
  tracked := False
  lineless := lineless
  followed := True
  faulty := True
  broken := False
  Abreast s s' := Spliced mask root lineless s s'

variable {mask : Mask} {first second : Settings} {root : Window} {lineless : Prop}

theorem lawful_splice (hplaces : mask.places = false) (hlocals : mask.locals = false)
    (hroot : root.token.kind = .symbol .semicolon) (hmode : root.newlines = false) :
    (splice mask first second root lineless).Lawful where
  shown := by simp [splice, hplaces, hlocals]
  broken := False.elim
  followed := id
  places h := nomatch hplaces.symm.trans h
  still := by
    rintro s s' t t' ⟨halone, hsettled, hplace⟩ hst - hst' -
    refine ⟨hst.suspended.trans halone, hst.window ▸ hsettled, ?_⟩
    cases hplace with
    | within span hbelow =>
      refine .within span (hst'.suspended.trans hbelow) ?_ ?_ ?_
      · rwa [hst.window]
      · rwa [hst.window, hst'.window]
      · rwa [hst.window]
    | behind halone' =>
      refine .behind (hst'.suspended.trans halone') ?_ ?_ ?_ ?_
      · rwa [hst.window]
      · rwa [hst'.window]
      · rwa [hst.window, hst'.window]
      · rwa [hst.window]
  token := by
    intro s s' hs
    cases hs.place with
    | within span hbelow hopen hlevel => exact .inl hlevel.token
    | behind halone' heof hwindow =>
      refine .inr ⟨⟨trivial, hs.ended heof⟩, ?_⟩
      rw [hwindow]
      simp [Token.isStop, hroot]
  previous := by
    intro s s' hs
    refine ⟨?_, Mask.position_hidden hplaces _ _⟩
    cases hs.place with
    | within span hbelow hopen hlevel => exact hlevel.previous
    | behind halone' heof hwindow hprevious => exact hprevious
  lookahead := by
    intro s s' hs
    cases hs.place with
    | within span hbelow hopen hlevel => exact .inl (Mask.isSymbol_eq hlevel.lookahead _)
    | behind halone' heof => exact .inr ⟨trivial, hs.ended heof⟩
  near h := absurd trivial h
  newlines := by
    intro s s' hs
    cases hs.place with
    | within span hbelow hopen hlevel => exact .inl hlevel.newlines
    | behind halone' heof hwindow hprevious hlines =>
      by_cases hthis : lineless
      · exact .inr ⟨⟨trivial, hs.ended heof⟩, hthis⟩
      · left
        rw [hlines hthis, hwindow]
        exact hmode.symm
  advance := by
    intro s s' hs hopen _
    cases hs.place with
    | behind _ heof =>
      rw [hopen] at heof
      cases heof
    | within span hbelow _ hlevel hline =>
      obtain ⟨hnone, hnone', hnext⟩ := hlevel.next hplaces hopen
      obtain ⟨ts, _, hts, -⟩ := hlevel.coming
      obtain ⟨all, hall⟩ := Window.exists_stream hts
      obtain ⟨rest, hrest, hsuffix⟩ := Window.next_suffix hlevel.first.plain hopen hnone hall
      have hline' : ¬lineless → ∀ ts, s.window.next.2.stream = .ok ts → EndsLine ts := by
        intro hthis ts hts
        rw [hrest] at hts
        cases hts
        exact (hline hthis all hall).of_suffix hsuffix
      rw [hnone, hnone']
      have hmoves : (s.window.next.2.token.isEof = true → ¬lineless → s.window.next.2.newlines = false) →
          (splice mask first second root lineless).Moves none none (s.resume s.window.next.2)
            (s'.resume s'.window.next.2) := fun h => .inr ⟨.none, .resume hs.alone hbelow hnext hline' h⟩
      cases heof : s.window.next.2.token.isEof with
      | false => exact .inl (hmoves fun h => nomatch heof.symm.trans h)
      | true =>
        cases hnewline : s.window.token.isNewline with
        | true =>
          refine .inr (.inl ⟨rfl, trivial, ?_⟩)
          rw [resume_alone hs.alone]
          exact ⟨hs.alone, heof, hnext.first.ended heof, hnext.first.finished (hnext.first.ended heof)⟩
        | false =>
          refine .inl (hmoves fun _ hthis => ?_)
          exact Window.newlines_of_endsLine (Token.isSolid_iff.mpr ⟨hopen, hnewline⟩) hall (hline hthis all hall) heof
  setNewlines := by
    intro s s' shown hs hallowed
    left
    cases hs.place with
    | within span hbelow hopen hlevel hline =>
      obtain ⟨hnone, hnone', hnext⟩ := hlevel.setNewlines shown
      rw [hnone, hnone']
      refine .inr ⟨.none, .resume hs.alone hbelow hnext (fun hthis ts hts => ?_) fun heof _ => ?_⟩
      · exact hline hthis ts ((Window.setNewlines_stream hlevel.first.plain hnone).symm.trans hts)
      · rw [Window.setNewlines_newlines]
        cases shown with
        | false => rfl
        | true =>
          rw [Window.setNewlines_true] at heof
          rw [hopen] at heof
          cases heof
    | behind halone' heof hwindow hprevious hlines =>
      obtain ⟨hthis, ⟨-, hshown⟩ | ⟨rfl, -⟩⟩ := hallowed.resolve_left fun h => h ⟨trivial, hs.ended heof⟩
      · rw [hlines hthis] at hshown
        cases hshown
      · have hsettled := hs.settled.setNewlines false
        have hnewline' : s'.window.token.isNewline = false := by
          rw [hwindow]
          simp [Token.isNewline, hroot]
        rw [resume_alone hs.alone, resume_alone halone']
        rw [Window.setNewlines_false_of_not_newline (Token.isNewline_of_isEof heof)] at hsettled ⊢
        rw [Window.setNewlines_false_of_not_newline hnewline']
        refine .inr ⟨.none, hs.alone, hsettled, .behind halone' heof ?_ hprevious fun _ => rfl⟩
        dsimp only
        rw [hwindow, ← hmode]
  passInclude := by
    intro s s' hs hkind
    have hdirective := hs.abreast.settled.plain.tokenKind
    simp [Token.isDirective, hkind] at hdirective
  undisturbed _ hs hreach := hreach.undisturbed_of_plain hs.plain
  lineEnd := by
    intro s s' hthis hs hover hshown
    cases hs.place with
    | within _ _ hopen =>
      rw [hover.2.token] at hopen
      cases hopen
    | behind _ _ _ _ hlines =>
      rw [hlines hthis] at hshown
      cases hshown
  showLines h := absurd trivial h
  semicolon h := absurd trivial h
  leaves h := absurd trivial h
  files h := absurd trivial h

end Comparison

end CartLua
