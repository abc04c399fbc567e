import CartLua.Proofs.Spelling
/-!
# Texts that go on

A text is scanned in the same way when it goes on with a new line: every token of it is found at its place, and behind the
last one scanning goes on with the new line. Where a text stands in another one matters to positions only.
-/

namespace CartLua

open List

/-! ### Trivia -/

namespace Trivia

variable {text rest : List Char} {c : Char} {n : Nat}

theorem shift_shift (m n : Nat) (t : Trivia) : (t.shift n).shift m = t.shift (m + n) := by
  cases t <;> simp only [shift, Nat.add_assoc]

theorem takeWhile_line_append (text more : List Char) :
    (text ++ '\n' :: more).takeWhile (· != '\n') = text.takeWhile (· != '\n') := by
  induction text with
  | nil => rfl
  | cons c text ih => rw [cons_append, takeWhile_cons, takeWhile_cons, ih]

theorem lineLength_append (text more : List Char) : lineLength (text ++ '\n' :: more) = lineLength text := by
  rw [lineLength, takeWhile_line_append, lineLength]

theorem comment?_append (h : comment? (c :: rest) = some (some n)) (more : List Char) :
    n ≤ rest.length ∧ comment? (c :: (rest ++ '\n' :: more)) = some (some n) := by
  have hline : ∀ text : List Char, lineLength text ≤ text.length := fun text => (List.takeWhile_prefix _).length_le
  unfold comment? at h
  split at h
  next inner heq =>
    obtain ⟨rfl, rfl⟩ := cons.inj heq
    have hcut := IsCut.append (isApart_newline more) inner
    have hlevel : LongBracket.level? (inner ++ '\n' :: more) = LongBracket.level? inner := by
      refine LongBracket.level?_cut hcut fun level hlevel => ?_
      rw [LongBracket.opening_of_level? hlevel, length_append, LongBracket.length_opening]
      exact Nat.le_add_right ..
    rw [cons_append, comment?, hlevel]
    split at h
    next level hlevel =>
      obtain ⟨⟨contents, length⟩, hread, rfl⟩ := Option.map_eq_some_iff.mp (Option.some.inj h)
      rw [LongBracket.read?_cut hcut hread (LongBracket.length_read? hread)]
      exact ⟨Nat.succ_le_succ (LongBracket.length_read? hread), rfl⟩
    next hlevel =>
      cases h
      rw [lineLength_append]
      exact ⟨Nat.succ_le_succ (hline inner), rfl⟩
  next inner heq =>
    obtain ⟨rfl, rfl⟩ := cons.inj heq
    cases h
    rw [cons_append, comment?, lineLength_append]
    exact ⟨Nat.succ_le_succ (hline inner), rfl⟩
  · cases h

theorem read_of_nil (h : text.drop (text.takeWhile isBlank).length = []) :
    read text = .clear (text.takeWhile isBlank).length := by
  rw [read]
  split
  · rfl
  next hcons =>
    rw [h] at hcons
    cases hcons

theorem read_of_cons (h : text.drop (text.takeWhile isBlank).length = c :: rest) :
    read text = match comment? (c :: rest) with
      | none => .clear (text.takeWhile isBlank).length
      | some none => .unclosed (text.takeWhile isBlank).length
      | some (some more) => (read (rest.drop more)).shift ((text.takeWhile isBlank).length + 1 + more) := by
  rw [read]
  split
  next hnil =>
    rw [h] at hnil
    cases hnil
  next hcons =>
    obtain ⟨rfl, rfl⟩ := cons.inj (hcons.symm.trans h)
    rfl

/-- Induction along the comments before a token. -/
@[elab_as_elim] theorem clear_induction {motive : List Char → Nat → Prop}
    (nil : ∀ text, text.drop (text.takeWhile isBlank).length = [] → motive text (text.takeWhile isBlank).length)
    (token : ∀ text c rest, text.drop (text.takeWhile isBlank).length = c :: rest → comment? (c :: rest) = none →
      motive text (text.takeWhile isBlank).length)
    (comment : ∀ text c rest skipped n, text.drop (text.takeWhile isBlank).length = c :: rest →
      comment? (c :: rest) = some (some skipped) → motive (rest.drop skipped) n →
      motive text ((text.takeWhile isBlank).length + 1 + skipped + n))
    (h : read text = .clear n) : motive text n := by
  fun_induction read text generalizing n with
  | case1 text =>
    rename_i hrest
    cases h
    exact nil text hrest
  | case2 text blanks c rest hrest _ =>
    rename_i hcomment
    cases h
    exact token text c rest hrest hcomment
  | case3 => cases h
  | case4 text blanks c rest hrest _ skipped hcomment =>
    rename_i ih
    cases hread : read (rest.drop skipped) with
    | unclosed =>
      rw [hread] at h
      cases h
    | clear m =>
      rw [hread] at h
      cases h
      exact comment text c rest skipped m hrest hcomment (ih hread)

theorem read_append_blanks {blanks : List Char} (h : ∀ b ∈ blanks, isBlank b = true) (text : List Char) :
    read (blanks ++ text) = (read text).shift blanks.length := by
  have htake : ((blanks ++ text).takeWhile isBlank).length = blanks.length + (text.takeWhile isBlank).length := by
    rw [takeWhile_append_of_pos h, length_append]
  have hdrop : (blanks ++ text).drop ((blanks ++ text).takeWhile isBlank).length =
      text.drop (text.takeWhile isBlank).length := by
    rw [htake, ← drop_drop, drop_left]
  cases hrest : text.drop (text.takeWhile isBlank).length with
  | nil => rw [read_of_nil hrest, read_of_nil (hdrop.trans hrest), htake, shift]
  | cons c rest =>
    rw [read_of_cons hrest, read_of_cons (hdrop.trans hrest), htake]
    cases comment? (c :: rest) with
    | none => rfl
    | some comment =>
      cases comment with
      | none => rfl
      | some =>
        dsimp only
        rw [shift_shift, Nat.add_assoc, Nat.add_assoc, Nat.add_assoc]

theorem read_newline (text : List Char) : read ('\n' :: text) = (read text).shift 1 :=
  read_append_blanks (forall_mem_singleton.mpr rfl) text

theorem read_append (h : read text = .clear n) (more : List Char) : n ≤ text.length ∧
    read (text ++ '\n' :: more) = if n < text.length then .clear n else (read ('\n' :: more)).shift n := by
  have hbehind {text rest : List Char} {c : Char} (hrest : text.drop (text.takeWhile isBlank).length = c :: rest) :
      (text.takeWhile isBlank).length + rest.length + 1 = text.length ∧
      ((text ++ '\n' :: more).takeWhile isBlank).length = (text.takeWhile isBlank).length ∧
      (text ++ '\n' :: more).drop ((text ++ '\n' :: more).takeWhile isBlank).length = c :: (rest ++ '\n' :: more) := by
    have hlengths := congrArg length hrest
    rw [length_drop, length_cons] at hlengths
    have htake := congrArg length (takeWhile_append_of_length (by omega : (text.takeWhile isBlank).length < _) ('\n' :: more))
    refine ⟨by omega, htake, ?_⟩
    rw [htake, drop_append_of_le_length (by omega), hrest, cons_append]
  refine clear_induction ?nil ?token ?comment h
  case nil =>
    intro text hrest
    -- Nothing but blanks: the new line comes on top of them.
    have hall : (text.takeWhile isBlank).length = text.length :=
      Nat.le_antisymm (List.takeWhile_prefix isBlank).length_le (drop_eq_nil_iff.mp hrest)
    have htext : text.takeWhile isBlank = text := (List.takeWhile_prefix isBlank).eq_of_length hall
    rw [hall, if_neg (Nat.lt_irrefl _)]
    refine ⟨le_rfl, read_append_blanks (fun b hb => ?_) _⟩
    rw [← htext] at hb
    exact mem_takeWhile_imp hb
  case token =>
    intro text c rest hrest hcomment
    obtain ⟨hlength, htake, hdrop⟩ := hbehind hrest
    rw [read_of_cons hdrop, htake, comment?_cut ((IsCut.append (isApart_newline more) rest).cons c) hcomment,
      if_pos (by omega)]
    exact ⟨by omega, rfl⟩
  case comment =>
    intro text c rest skipped m hrest hcomment ih
    obtain ⟨hlength, htake, hdrop⟩ := hbehind hrest
    obtain ⟨hskipped, hlong⟩ := comment?_append hcomment more
    rw [length_drop] at ih
    refine ⟨by omega, ?_⟩
    rw [read_of_cons hdrop, htake, hlong]
    dsimp only
    rw [drop_append_of_le_length hskipped, ih.2]
    by_cases hend : m < rest.length - skipped
    · rw [if_pos hend, if_pos (by omega), shift]
    · rw [if_neg hend, if_neg (by omega), shift_shift]

end Trivia

namespace Cursor

variable {mode : Encoding} {c c' next : Cursor} {t eof : Token} {n : Nat}

/-! ### A text that goes on -/

def extend (c : Cursor) (behind : List Char) : Cursor := { c with rest := c.rest ++ behind }

theorem skip_extend (h : n ≤ c.rest.length) (behind : List Char) :
    (c.extend behind).skip n = (c.skip n).extend behind := by
  induction n generalizing c with
  | zero => rfl
  | succ n ih =>
    cases hrest : c.rest with
    | nil =>
      rw [hrest] at h
      cases h
    | cons ch rest =>
      have hlong : (c.extend behind).rest = ch :: (rest ++ behind) := by rw [extend, hrest, cons_append]
      rw [skip_cons hrest, skip_cons hlong]
      rw [hrest] at h
      exact ih (c := ⟨rest, c.position.after ch, ch == '\n' || (c.fresh && isBlank ch)⟩) (Nat.le_of_succ_le_succ h)

theorem scan_extend_of_token (h : c.scan mode = .token t next) (more : List Char) :
    (c.extend ('\n' :: more)).scan mode = .token t (next.extend ('\n' :: more)) := by
  obtain ⟨n, ch, rest, htrivia, hrest, lexeme, text, rfl, houtcome, htext, rfl, hspan⟩ := scan_token h
  have hlt : n < c.rest.length := by
    by_contra hle
    rw [rest_skip, drop_eq_nil_of_le (Nat.not_lt.mp hle)] at hrest
    cases hrest
  have hlong : Trivia.read (c.extend ('\n' :: more)).rest = .clear n := by
    rw [extend, (Trivia.read_append htrivia more).2, if_pos hlt]
  have hstart := skip_extend hlt.le ('\n' :: more)
  have hchars : ((c.skip n).extend ('\n' :: more)).rest = ch :: (rest ++ '\n' :: more) := by
    rw [extend, hrest, cons_append]
  have hlexeme := Lexeme.read_cut houtcome (.append (isApart_newline more) rest)
    (Nat.le_of_lt_succ (Lexeme.fits_read ..).1) (fun _ => ⟨rfl, Trivia.takeWhile_line_append rest more⟩) .inl
    (c.skip n).position.line
  have hmore : (Lexeme.read mode (c.skip n).position.line (c.skip n).fresh ch rest).more + 1 ≤ (c.skip n).rest.length := by
    rw [hrest]
    exact (Lexeme.fits_read ..).1
  have hend := skip_extend hmore ('\n' :: more)
  have hplace : ((c.skip n).extend ('\n' :: more)).place
      (Lexeme.read mode (c.skip n).position.line (c.skip n).fresh ch rest) =
        .token t (((c.skip n).skip ((Lexeme.read mode (c.skip n).position.line (c.skip n).fresh ch rest).more + 1)).extend
          ('\n' :: more)) := by
    unfold place
    rw [hend, houtcome]
    dsimp only
    rw [← htext]
    exact congrArg (Scan.token · _) (congrArg (Token.mk t.kind t.text) hspan.symm)
  unfold scan
  rw [hlong]
  dsimp only
  rw [hstart, hchars]
  exact (congrArg _ hlexeme).trans hplace

theorem scan_skip (hn : n ≤ c.rest.length) (h : Trivia.read c.rest = (Trivia.read (c.skip n).rest).shift n) :
    c.scan mode = (c.skip n).scan mode := by
  have hend : c.skip c.rest.length = (c.skip n).skip (c.skip n).rest.length := by
    rw [skip_skip, rest_skip, length_drop, Nat.add_sub_cancel' hn]
  unfold scan
  rw [h]
  cases Trivia.read (c.skip n).rest with
  | clear =>
    dsimp only [Trivia.shift]
    rw [← skip_skip]
  | unclosed =>
    dsimp only [Trivia.shift]
    rw [← skip_skip, hend]

theorem scan_newline {rest : List Char} (h : c.rest = '\n' :: rest) : c.scan mode = (c.skip 1).scan mode := by
  refine scan_skip (by rw [h]; exact Nat.succ_le_succ (Nat.zero_le _)) ?_
  rw [rest_skip, h]
  exact Trivia.read_newline rest

theorem scan_extend_of_done (h : c.scan mode = .done eof next) (more : List Char) :
    (c.extend ('\n' :: more)).scan mode = (next.extend ('\n' :: more)).scan mode := by
  obtain ⟨n, htrivia, rfl, hrest, -⟩ := trivia_of_done h
  obtain ⟨hn, hlong⟩ := Trivia.read_append htrivia more
  have hend : ¬n < c.rest.length := by
    rw [rest_skip, drop_eq_nil_iff] at hrest
    exact Nat.not_lt.mpr hrest
  rw [if_neg hend] at hlong
  rw [← skip_extend hn]
  refine scan_skip ?_ ?_
  · rw [extend, length_append]
    exact hn.trans (Nat.le_add_right ..)
  · rw [skip_extend hn, extend, hlong, extend, hrest, nil_append]

/-! ### A text that stands elsewhere -/

/-- The same text some lines further down. What is fresh there is so here. -/
structure Shifted (lines : Nat) (c c' : Cursor) : Prop where
  rest : c'.rest = c.rest
  line : c'.position.line = c.position.line + lines
  fresh : c'.fresh = true → c.fresh = true

variable {lines : Nat}

theorem Shifted.skip (h : Shifted lines c c') (n : Nat) : Shifted lines (c.skip n) (c'.skip n) := by
  induction n generalizing c c' with
  | zero => exact h
  | succ n ih =>
    cases hrest : c.rest with
    | nil =>
      rw [skip_of_nil hrest, skip_of_nil (h.rest.trans hrest)]
      exact h
    | cons ch rest =>
      rw [skip_cons hrest, skip_cons (h.rest.trans hrest)]
      refine ih ⟨rfl, ?_, ?_⟩
      · have hline := h.line
        unfold Position.after
        split
        · simp only [hline]
          omega
        · exact hline
      · have hfresh := h.fresh
        cases hnewline : ch == '\n' with
        | true => exact fun _ => rfl
        | false =>
          simp only [Bool.false_or, Bool.and_eq_true]
          exact fun h => ⟨hfresh h.1, h.2⟩

theorem fresh_skip (hrest : c'.rest = c.rest) (hfresh : c'.fresh = c.fresh) (n : Nat) :
    (c'.skip n).fresh = (c.skip n).fresh := by
  induction n generalizing c c' with
  | zero => exact hfresh
  | succ n ih =>
    cases hchars : c.rest with
    | nil => rw [skip_of_nil hchars, skip_of_nil (hrest.trans hchars), hfresh]
    | cons =>
      rw [skip_cons hchars, skip_cons (hrest.trans hchars)]
      exact ih rfl (by rw [hfresh])

/-- A token is found again where the text stands elsewhere. An include line has to be fresh there too. -/
theorem Shifted.scan_token (h : Shifted lines c c') (hscan : c.scan mode = .token t next)
    (hfresh : c'.fresh = c.fresh ∨ t.kind ≠ .directive) : ∃ t' next', c'.scan mode = .token t' next' ∧
      t'.kind = t.kind ∧ t'.text = t.text ∧ t'.span.start.line = t.span.start.line + lines ∧
      t'.span.stop.line = t.span.stop.line + lines ∧ Shifted lines next next' ∧
      (c'.fresh = c.fresh → next'.fresh = next.fresh) := by
  obtain ⟨n, ch, rest, htrivia, hrest, lexeme, text, rfl, houtcome, htext, rfl, hspan⟩ := Cursor.scan_token hscan
  have hstart := h.skip n
  have hlexeme : Lexeme.read mode (c'.skip n).position.line (c'.skip n).fresh ch rest =
      Lexeme.read mode (c.skip n).position.line (c.skip n).fresh ch rest := by
    have hcut := IsCut.append isApart_nil rest
    rw [append_nil] at hcut
    refine Lexeme.read_cut houtcome hcut (Nat.le_of_lt_succ (Lexeme.fits_read ..).1) (fun hkind => ⟨?_, rfl⟩)
      (fun hthat => .inl (hstart.fresh hthat)) _
    exact fresh_skip h.rest (hfresh.resolve_right (not_not.mpr hkind)) n
  have hend := hstart.skip ((Lexeme.read mode (c.skip n).position.line (c.skip n).fresh ch rest).more + 1)
  refine ⟨⟨t.kind, t.text, (c'.skip n).spanTo ((c'.skip n).skip
    ((Lexeme.read mode (c.skip n).position.line (c.skip n).fresh ch rest).more + 1))⟩, _, ?_, rfl, rfl, ?_, ?_, hend, ?_⟩
  · unfold scan
    rw [h.rest, htrivia]
    dsimp only
    rw [hstart.rest, hrest]
    dsimp only
    rw [hlexeme, place, houtcome]
    rw [htext]
  · rw [hspan]
    exact hstart.line
  · rw [hspan]
    exact hend.line
  · exact fun hfresh => fresh_skip hstart.rest (fresh_skip h.rest hfresh n) _

theorem Shifted.scan_done (h : Shifted lines c c') (hscan : c.scan mode = .done eof next) :
    ∃ eof' next', c'.scan mode = .done eof' next' ∧ eof'.kind = eof.kind ∧ eof'.text = eof.text ∧
      eof'.span.start.line = eof.span.start.line + lines ∧ eof'.span.stop.line = eof.span.stop.line + lines := by
  obtain ⟨n, htrivia, rfl, hrest, heof⟩ := trivia_of_done hscan
  have hstart := h.skip n
  refine ⟨Token.eof (c'.skip n).position, c'.skip n, ?_, ?_⟩
  · unfold scan
    rw [h.rest, htrivia]
    dsimp only
    rw [hstart.rest, hrest]
  · rw [heof]
    exact ⟨rfl, rfl, hstart.line, hstart.line⟩

def sound (mode : Encoding) : Nat → Cursor → Bool
  | 0, _ => true
  | n + 1, c =>
    match c.scan mode with
    | .done .. => true
    | .token _ next => sound mode n next
    | .fault .. => false

theorem Shifted.sound (h : Shifted lines c c') (hfresh : c'.fresh = c.fresh)
    (hsound : c.sound mode n = true) : c'.sound mode n = true := by
  induction n generalizing c c' with
  | zero => rfl
  | succ n ih =>
    unfold Cursor.sound at hsound ⊢
    cases hscan : c.scan mode with
    | done =>
      obtain ⟨_, _, hscan', -⟩ := h.scan_done hscan
      rw [hscan']
    | token =>
      rw [hscan] at hsound
      obtain ⟨_, _, hscan', -, -, -, -, hnext, hfresh'⟩ := h.scan_token hscan (.inl hfresh)
      rw [hscan']
      exact ih hnext (hfresh' hfresh) hsound
    | fault =>
      rw [hscan] at hsound
      cases hsound

end Cursor

end CartLua
