import CartLua.Proofs.GrammarSimulation
/-!
# Texts of the same layout

Two texts have the same layout if their tokens look the same and lines end between the same ones. Windows over such texts
move alike: they show line ends at the same places and meet no faults. This is said of windows alone, so that it holds
wherever in a program the two texts stand.
-/

namespace CartLua

open Cursor

def lineBreaks (ts : List Token) : List Bool :=
  List.zipWith (fun a b => decide (a.span.stop.line < b.span.start.line)) ts ts.tail

/-- The tokens look the same, and lines end between the same ones. -/
structure SameLayout (m : Mask) (ts ts' : List Token) : Prop where
  tokens : ts.map m.token = ts'.map m.token
  breaks : lineBreaks ts = lineBreaks ts'

namespace SameLayout

variable {m : Mask} {ts ts' : List Token} {a a' b b' : Token}

theorem length_eq (h : SameLayout m ts ts') : ts.length = ts'.length := by
  simpa using congrArg List.length h.tokens

theorem head (h : SameLayout m (a :: ts) (a' :: ts')) : m.token a = m.token a' := (List.cons.inj h.tokens).1

theorem tail (h : SameLayout m (a :: ts) (a' :: ts')) : SameLayout m ts ts' := by
  have hlength := h.length_eq
  cases ts <;> cases ts' <;> simp only [List.length_cons, List.length_nil] at hlength
  · exact ⟨rfl, rfl⟩
  · omega
  · omega
  · exact ⟨(List.cons.inj h.tokens).2, (List.cons.inj h.breaks).2⟩

theorem gap (h : SameLayout m (a :: b :: ts) (a' :: b' :: ts')) :
    decide (a.span.stop.line < b.span.start.line) = decide (a'.span.stop.line < b'.span.start.line) :=
  (List.cons.inj h.breaks).1

theorem again (h : SameLayout m [a] [a']) (ha : a.span.start = a.span.stop) (ha' : a'.span.start = a'.span.stop) :
    SameLayout m [a, a] [a', a'] := by
  refine ⟨by simp [h.head], ?_⟩
  simp [lineBreaks, ha, ha']

end SameLayout

namespace Window

variable {m : Mask} {w w' : Window} {ts : List Token} {ts' : List Token} {mode : Encoding}

/-- The lookahead and all that is found behind it. -/
def coming (w : Window) : Except Diagnostic (List Token) := (w.cursor.tokens w.encoding).map (w.lookahead :: ·)

theorem fetch_coming (h : w.cursor.tokens w.encoding = .ok ts) : w.fetch.1 = none ∧
    ((w.fetch.2.coming = .ok ts ∧ w.fetch.2.lookahead.isEof = false) ∨
      (∃ p, ts = [Token.eof p] ∧ w.fetch.2.lookahead = Token.eof p ∧ w.fetch.2.cursor.rest = [] ∧
        w.fetch.2.coming = .ok [Token.eof p, Token.eof p])) := by
  unfold fetch
  split
  next eof next hscan =>
    obtain ⟨hrest, rfl, n, hnext⟩ := scan_done hscan
    rw [tokens_of_done hscan] at h
    cases h
    refine ⟨rfl, .inr ⟨next.position, rfl, rfl, hrest, ?_⟩⟩
    unfold coming
    dsimp only
    rw [tokens_of_done (scan_nil hrest)]
    rfl
  next t next hscan =>
    refine ⟨rfl, .inl ⟨?_, isEof_of_scan hscan⟩⟩
    rw [← h, tokens_of_token hscan]
    rfl
  next d next hscan =>
    rw [tokens_of_fault hscan] at h
    cases h

/-- A window on its way over a text. -/
structure Settled (w : Window) : Prop where
  plain : w.Plain
  coherent : w.Coherent
  previous : w.previous.IsIn w.file
  /-- A line end that is shown stands right behind the token passed last, and the line does end there. -/
  newline : w.token.isNewline = true →
    w.token.span = Span.point w.previous.span.stop ∧ w.previous.span.stop.line < w.lookahead.span.start.line
  /-- Behind the end there is nothing. -/
  ended : w.token.isEof = true → w.lookahead.isEof = true
  finished : w.lookahead.isEof = true → w.cursor.rest = []

theorem isEof_fetch_iff (w : Window) : w.fetch.2.lookahead.isEof = true → w.fetch.2.cursor.rest = [] := by
  rw [fetch_eq]
  dsimp only
  generalize w.cursor = c
  induction c using scan_induction w.encoding with
  | done c eof next h =>
    rw [nextToken_of_done h]
    exact fun _ => (scan_done h).1
  | token c t next h _ =>
    rw [nextToken_of_token h]
    intro heof
    rw [isEof_of_scan h] at heof
    cases heof
  | fault c d next h ih =>
    rw [nextToken_of_fault h]
    exact ih

theorem Settled.fetch (hplain : w.fetch.2.Plain) (hcoherent : w.fetch.2.Coherent) (hprevious : w.previous.IsIn w.file)
    (hnewline : w.token.isNewline = false) (hended : w.token.isEof = true → w.cursor.rest = []) : w.fetch.2.Settled := by
  refine ⟨hplain, hcoherent, ?_, ?_, ?_, isEof_fetch_iff w⟩
  · rw [fetch_previous, fetch_file]
    exact hprevious
  · rw [fetch_token, hnewline]
    nofun
  · rw [fetch_token]
    intro heof
    exact (Session.fetch_at_end (hended heof)).1

theorem Settled.next (h : w.Settled) : w.next.2.Settled := by
  have hplain := h.plain.next
  have hcoherent := h.coherent.next
  unfold Window.next at hplain hcoherent ⊢
  split
  next hline =>
    rw [if_pos hline] at hplain hcoherent
    simp only [atLineEnd, Bool.and_eq_true, decide_eq_true_eq] at hline
    exact ⟨hplain, hcoherent, h.coherent.1, fun _ => ⟨rfl, hline.2⟩, (absurd · Bool.false_ne_true), h.finished⟩
  next hline =>
    rw [if_neg hline] at hplain hcoherent
    exact .fetch hplain hcoherent h.coherent.1 h.plain.lookahead.newline h.finished

theorem Settled.setNewlines (h : w.Settled) (shown : Bool) : (w.setNewlines shown).2.Settled := by
  have hplain := h.plain.setNewlines shown
  have hcoherent := h.coherent.setNewlines shown
  obtain hset | ⟨-, -, hset⟩ := w.setNewlines_cases shown
  · rw [hset] at hplain hcoherent ⊢
    exact ⟨hplain, hcoherent, h.previous, h.newline, h.ended, h.finished⟩
  · rw [hset] at hplain hcoherent ⊢
    exact .fetch hplain hcoherent h.previous h.plain.lookahead.newline h.finished

/-- Two windows at the same place of texts of the same layout. -/
structure Level (m : Mask) (w w' : Window) : Prop where
  first : w.Settled
  second : w'.Settled
  newlines : w.newlines = w'.newlines
  previous : w.previous.isSymbol .rightParen = w'.previous.isSymbol .rightParen
  token : m.token w.token = m.token w'.token
  coming : ∃ ts ts', w.coming = .ok ts ∧ w'.coming = .ok ts' ∧ SameLayout m ts ts'
  gap : w.token.isSolid = true → decide (w.token.span.stop.line < w.lookahead.span.start.line) =
    decide (w'.token.span.stop.line < w'.lookahead.span.start.line)
  /-- Lines end behind the tokens passed last or not, but for the start of the first text. -/
  back : w.token.isSolid = true → w.previous.isEof = true ∨
    decide (w.previous.span.stop.line < w.token.span.start.line) =
      decide (w'.previous.span.stop.line < w'.token.span.start.line)

theorem exists_coming (h : w.coming = .ok ts) :
    ∃ rest, w.cursor.tokens w.encoding = .ok rest ∧ ts = w.lookahead :: rest := by
  unfold coming at h
  cases hrest : w.cursor.tokens w.encoding with
  | error =>
    rw [hrest] at h
    cases h
  | ok rest =>
    rw [hrest] at h
    cases h
    exact ⟨rest, rfl, rfl⟩

theorem Level.lookahead (h : Level m w w') : m.token w.lookahead = m.token w'.lookahead := by
  obtain ⟨ts, ts', hts, hts', hlayout⟩ := h.coming
  obtain ⟨rest, -, rfl⟩ := exists_coming hts
  obtain ⟨rest', -, rfl⟩ := exists_coming hts'
  exact hlayout.head

theorem fetch_layout (w w' : Window) (hts : w.cursor.tokens w.encoding = .ok ts)
    (hts' : w'.cursor.tokens w'.encoding = .ok ts') (hlayout : SameLayout m ts ts') :
    ∃ cs cs' more more', w.fetch.2.coming = .ok cs ∧ w'.fetch.2.coming = .ok cs' ∧ SameLayout m cs cs' ∧
      ts = w.fetch.2.lookahead :: more ∧ ts' = w'.fetch.2.lookahead :: more' := by
  obtain ⟨hcoming, heof⟩ | ⟨p, rfl, hlookahead, -, hcoming⟩ := (fetch_coming hts).2
  · obtain ⟨more, -, rfl⟩ := exists_coming hcoming
    obtain ⟨hcoming', heof'⟩ | ⟨p', rfl, hlookahead', -, hcoming'⟩ := (fetch_coming hts').2
    · obtain ⟨more', -, rfl⟩ := exists_coming hcoming'
      exact ⟨_, _, more, more', hcoming, hcoming', hlayout, rfl, rfl⟩
    · have hend := Mask.isEof_eq hlayout.head
      rw [heof] at hend
      cases hend
  · obtain ⟨hcoming', heof'⟩ | ⟨p', rfl, hlookahead', -, hcoming'⟩ := (fetch_coming hts').2
    · obtain ⟨more', -, rfl⟩ := exists_coming hcoming'
      have hend := Mask.isEof_eq hlayout.head
      rw [heof'] at hend
      cases hend
    · exact ⟨_, _, [], [], hcoming, hcoming', hlayout.again rfl rfl, by rw [hlookahead], by rw [hlookahead']⟩

theorem fetch_level (w w' : Window) {rest rest' : List Token} (hrest : w.cursor.tokens w.encoding = .ok rest)
    (hrest' : w'.cursor.tokens w'.encoding = .ok rest') (hlayout : SameLayout m (w.token :: rest) (w'.token :: rest'))
    (hfirst : w.fetch.2.Settled) (hsecond : w'.fetch.2.Settled) (hnewlines : w.newlines = w'.newlines)
    (hprevious : w.previous.isSymbol .rightParen = w'.previous.isSymbol .rightParen)
    (hback : w.previous.isEof = true ∨ decide (w.previous.span.stop.line < w.token.span.start.line) =
      decide (w'.previous.span.stop.line < w'.token.span.start.line)) :
    w.fetch.1 = none ∧ w'.fetch.1 = none ∧ Level m w.fetch.2 w'.fetch.2 := by
  obtain ⟨cs, cs', more, more', hcoming, hcoming', hsame, rfl, rfl⟩ := fetch_layout w w' hrest hrest' hlayout.tail
  refine ⟨(fetch_coming hrest).1, (fetch_coming hrest').1, hfirst, hsecond, ?_, ?_, ?_, ⟨cs, cs', hcoming, hcoming', hsame⟩,
    ?_, ?_⟩
  · rw [fetch_newlines, fetch_newlines, hnewlines]
  · rw [fetch_previous, fetch_previous, hprevious]
  · rw [fetch_token, fetch_token, hlayout.head]
  · intro _
    rw [fetch_token, fetch_token]
    exact hlayout.gap
  · intro _
    rw [fetch_token, fetch_token, fetch_previous, fetch_previous]
    exact hback

theorem Level.next (hm : m.places = false) (h : Level m w w') (hend : w.token.isEof = false) :
    w.next.1 = none ∧ w'.next.1 = none ∧ Level m w.next.2 w'.next.2 := by
  have hfirst := h.first.next
  have hsecond := h.second.next
  have hline : w.atLineEnd = w'.atLineEnd := by
    cases hnewline : w.token.isNewline with
    | true =>
      have hnewline' := Mask.isNewline_eq h.token
      rw [hnewline] at hnewline'
      simp [atLineEnd, hnewline, ← hnewline']
    | false =>
      have hsolid : w.token.isSolid = true := Token.isSolid_iff.mpr ⟨hend, hnewline⟩
      have hsolid' : w'.token.isSolid = true := by
        rw [Token.isSolid_iff, ← Mask.isEof_eq h.token, ← Mask.isNewline_eq h.token]
        exact ⟨hend, hnewline⟩
      rw [atLineEnd_solid hsolid, atLineEnd_solid hsolid', h.newlines, h.gap hsolid]
  unfold Window.next at hfirst hsecond ⊢
  rw [← hline] at hsecond ⊢
  obtain ⟨ts, ts', hts, hts', hlayout⟩ := h.coming
  split
  next hthis =>
    rw [if_pos hthis] at hfirst hsecond
    refine ⟨rfl, rfl, hfirst, hsecond, h.newlines, Mask.isSymbol_eq h.token _, ?_, ⟨ts, ts', hts, hts', hlayout⟩,
      (absurd · Bool.false_ne_true), (absurd · Bool.false_ne_true)⟩
    simp only [Mask.token, Token.newline, Mask.span_hidden hm _ default]
  next hthis =>
    rw [if_neg hthis] at hfirst hsecond
    obtain ⟨rest, hrest, rfl⟩ := exists_coming hts
    obtain ⟨rest', hrest', rfl⟩ := exists_coming hts'
    refine fetch_level { w with previous := w.token, token := w.lookahead }
      { w' with previous := w'.token, token := w'.lookahead } hrest hrest' hlayout hfirst hsecond h.newlines
      (Mask.isSymbol_eq h.token _) (.inr ?_)
    -- Behind a line end that was shown the line has ended in both texts.
    cases hnewline : w.token.isNewline with
    | true =>
      obtain ⟨hspan, hbreak⟩ := h.first.newline hnewline
      obtain ⟨hspan', hbreak'⟩ := h.second.newline (by rw [← Mask.isNewline_eq h.token, hnewline])
      simp [hspan, hspan', Span.point, hbreak, hbreak']
    | false => exact h.gap (Token.isSolid_iff.mpr ⟨hend, hnewline⟩)

theorem Level.setNewlines (h : Level m w w') (shown : Bool) : (w.setNewlines shown).1 = none ∧
    (w'.setNewlines shown).1 = none ∧ Level m (w.setNewlines shown).2 (w'.setNewlines shown).2 := by
  have hfirst := h.first.setNewlines shown
  have hsecond := h.second.setNewlines shown
  have hnewline := Mask.isNewline_eq h.token
  unfold Window.setNewlines at hfirst hsecond ⊢
  dsimp only at hfirst hsecond ⊢
  rw [← hnewline] at hsecond ⊢
  split
  next hthis =>
    rw [if_pos hthis] at hfirst hsecond
    simp only [Bool.and_eq_true] at hthis
    obtain ⟨ts, ts', hts, hts', hlayout⟩ := h.coming
    obtain ⟨rest, hrest, rfl⟩ := exists_coming hts
    obtain ⟨rest', hrest', rfl⟩ := exists_coming hts'
    refine fetch_level { w with newlines := shown, token := w.lookahead }
      { w' with newlines := shown, token := w'.lookahead } hrest hrest' hlayout hfirst hsecond rfl h.previous (.inr ?_)
    obtain ⟨-, hbreak⟩ := h.first.newline hthis.2
    obtain ⟨-, hbreak'⟩ := h.second.newline (by rw [← hnewline]; exact hthis.2)
    simp [hbreak, hbreak']
  next hthis =>
    rw [if_neg hthis] at hfirst hsecond
    exact ⟨rfl, rfl, hfirst, hsecond, rfl, h.previous, h.token, h.coming, h.gap, h.back⟩

theorem atFirst_settled {text : String} {file : FileId}
    (hplain : (Cartridge.code text.toList file).Plain mode) : (ofText mode text file).atFirst.fetch.2.Settled := by
  have hfetched : (ofText mode text file).fetch.2.Plain := Plain.fetch ⟨rfl, nofun, nofun, nofun⟩ rfl hplain
  have hcoherent : (ofText mode text file).fetch.2.Coherent :=
    fetch_coherent ⟨(Cartridge.code_file _ _).symm, (Cartridge.code_file _ _).symm⟩
  refine .fetch (Plain.fetch hfetched.lookahead hfetched.lookaheadKind hfetched.cursor) (fetch_coherent hcoherent.2) ?_
    hfetched.lookahead.newline (isEof_fetch_iff _)
  have hprevious : (ofText mode text file).atFirst.previous = Token.eof { file } := fetch_previous _
  have hfile : (ofText mode text file).atFirst.file = file :=
    (fetch_file (ofText mode text file)).trans (Cartridge.code_file _ _)
  rw [hprevious, hfile]
  exact ⟨rfl, rfl⟩

theorem start_level {text text' : String} {file file' : FileId}
    (htokens : tokenize mode text file = .ok ts) (htokens' : tokenize mode text' file' = .ok ts')
    (hlayout : SameLayout m ts ts') (hplain : (Cartridge.code text.toList file).Plain mode)
    (hplain' : (Cartridge.code text'.toList file').Plain mode) :
    (ofText mode text file).start.1 = none ∧ (ofText mode text' file').start.1 = none ∧
      Level m (ofText mode text file).start.2 (ofText mode text' file').start.2 := by
  have hfetch := fetch_coming (w := ofText mode text file) htokens
  have hfetch' := fetch_coming (w := ofText mode text' file') htokens'
  obtain ⟨cs, cs', -, -, hcoming, hcoming', hsame, -, -⟩ :=
    fetch_layout (ofText mode text file) (ofText mode text' file') htokens htokens' hlayout
  obtain ⟨rest, hrest, rfl⟩ := exists_coming hcoming
  obtain ⟨rest', hrest', rfl⟩ := exists_coming hcoming'
  have hnewlines : ∀ (text : String) (file : FileId), (ofText mode text file).atFirst.newlines = false :=
    fun _ _ => fetch_newlines _
  have hprevious : ∀ (text : String) (file : FileId), (ofText mode text file).atFirst.previous = Token.eof { file } :=
    fun _ _ => fetch_previous _
  obtain ⟨hnone, hnone', hlevel⟩ := fetch_level (m := m) (ofText mode text file).atFirst
    (ofText mode text' file').atFirst hrest hrest' hsame (atFirst_settled hplain) (atFirst_settled hplain')
    ((hnewlines _ _).trans (hnewlines _ _).symm) (by rw [hprevious, hprevious]; rfl) (.inl (by rw [hprevious]; rfl))
  rw [start_eq, start_eq, hfetch.1, hfetch'.1, hnone, hnone']
  exact ⟨rfl, rfl, hlevel⟩

end Window

end CartLua
