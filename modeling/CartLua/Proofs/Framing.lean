import CartLua.Proofs.Scan
/-!
# Cartridge framing

A cartridge is tokenized as its code is when it stands alone, with every position moved to where it lies in the
cartridge. Moving is a map of positions that goes along with the characters that are passed over, and all of scanning
commutes with it. What is left is where the code starts: a line below the mark, also when no line follows the mark, and
that is the only place where a position is not the real one.
-/

namespace CartLua

open List

/-! ### Real positions -/

namespace Position

/-- The position of a character of a text, given by its index: the lines count the line feeds before it, the columns
the characters behind the last of them. -/
def inText (text : List Char) (file : FileId) (index : Nat) : Position where
  line := 1 + (text.take index).count '\n'
  column := 1 + ((text.take index).reverse.takeWhile (· != '\n')).length
  index := index
  file := file

variable {text rest : List Char} {c : Char} {index : Nat}

theorem after_inText (file : FileId) (h : text.drop index = c :: rest) :
    (inText text file index).after c = inText text file (index + 1) := by
  have htake : text.take (index + 1) = text.take index ++ [c] := by
    rw [take_add, h, take_succ_cons, take_zero]
  unfold inText
  rw [htake, count_append, reverse_append, reverse_singleton, singleton_append,
    takeWhile_cons]
  by_cases hc : c = '\n'
  · subst hc
    rfl
  · simp only [after, count_singleton, beq_iff_eq, bne_iff_ne, ne_eq, hc, not_false_eq_true, if_true,
      if_false, length_cons, Nat.add_zero]
    rfl

end Position

/-! ### Moving positions -/

section Moving

variable (move : Position → Position)

def Span.moved (s : Span) : Span := ⟨move s.start, move s.stop⟩

def Token.moved (t : Token) : Token := { t with span := t.span.moved move }

/-- The fault as one that is met on the line, where it tells its line. -/
def Fault.onLine (line : Nat) : Fault → Fault
  | .unfinishedLongString _ => .unfinishedLongString line
  | .unfinishedLongComment _ => .unfinishedLongComment line
  | fault => fault

/-- A diagnostic of reading at another place. A fault that tells its line tells the line of the new place. -/
def Diagnostic.moved (d : Diagnostic) : Diagnostic :=
  { d with fault := d.fault.onLine (move d.span.start).line, span := d.span.moved move }

/-- The tokens or the fault of a text at another place. -/
def movedTokens : Except Diagnostic (List Token) → Except Diagnostic (List Token)
  | .ok ts => .ok (ts.map (Token.moved move))
  | .error d => .error (d.moved move)

def Cursor.moved (c : Cursor) : Cursor := { c with position := move c.position }

def Scan.moved : Scan → Scan
  | .done eof next => .done (eof.moved move) (next.moved move)
  | .token t next => .token (t.moved move) (next.moved move)
  | .fault d next => .fault (d.moved move) (next.moved move)

end Moving

namespace Lexeme

variable {mode : Encoding} {fresh : Bool} {c : Char} {rest : List Char}

theorem onLine_of_quoted {quote : Char} {flaw : Flaw} (h : (quoted mode quote rest).outcome = .error flaw) (line : Nat) :
    flaw.fault.onLine line = flaw.fault := by
  unfold quoted at h
  split at h
  · cases h
    rfl
  next hquoted =>
    cases h
    obtain ⟨c, hfault⟩ | ⟨reason, near, hfault⟩ := Quoted.isPartFault_of_read hquoted
    · rw [hfault]
      rfl
    · rw [hfault]
      cases reason <;> rfl
  · cases h

theorem read_line (mode : Encoding) (fresh : Bool) (c : Char) (rest : List Char) :
    (∃ more, ∀ line, read mode line fresh c rest = wrong more (.unfinishedLongString line)) ∨
      ∃ lexeme : Lexeme, (∀ line, read mode line fresh c rest = lexeme) ∧
        ∀ flaw line, lexeme.outcome = .error flaw → flaw.fault.onLine line = flaw.fault := by
  unfold read
  split
  · exact .inr ⟨_, fun _ => rfl, fun flaw line h => onLine_of_quoted h line⟩
  split
  · refine .inr ⟨_, fun _ => rfl, fun flaw line h => ?_⟩
    unfold numeral at h
    split at h <;> cases h
    rfl
  split
  next level _ =>
    unfold longString
    split
    · exact .inl ⟨_, fun _ => rfl⟩
    · refine .inr ⟨_, fun _ => rfl, fun flaw line h => ?_⟩
      split at h <;> cases h
      rfl
  split
  · exact .inr ⟨_, fun _ => rfl, nofun⟩
  split
  · exact .inr ⟨_, fun _ => rfl, nofun⟩
  · refine .inr ⟨_, fun _ => rfl, fun flaw line h => ?_⟩
    unfold sign at h
    split at h
    · cases h
    · split at h <;> cases h
      rfl

end Lexeme

namespace Cursor

variable {move : Position → Position} {mode : Encoding} {c : Cursor}

/-- The map goes along with every character that is still to come. -/
def GoesAlong (move : Position → Position) (c : Cursor) : Prop :=
  ∀ n ch rest, (c.skip n).rest = ch :: rest →
    move ((c.skip n).position.after ch) = (move (c.skip n).position).after ch

theorem GoesAlong.skip (h : c.GoesAlong move) (m : Nat) : (c.skip m).GoesAlong move := by
  intro n ch rest hrest
  rw [skip_skip] at hrest ⊢
  exact h (m + n) ch rest hrest

theorem skip_moved (h : c.GoesAlong move) (n : Nat) : (c.moved move).skip n = (c.skip n).moved move := by
  induction n generalizing c with
  | zero => rfl
  | succ n ih =>
    cases hrest : c.rest with
    | nil =>
      rw [skip_of_nil hrest, skip_of_nil (c := c.moved move) hrest]
    | cons ch rest =>
      have hnext := skip_cons hrest 0
      have hstep : c.skip (n + 1) = (c.skip 1).skip n := by rw [skip_skip, Nat.add_comm]
      rw [hstep, ← ih (h.skip 1), hnext, skip_cons (c := c.moved move) hrest]
      exact congrArg (fun p => Cursor.skip ⟨rest, p, _⟩ n) (h 0 ch rest hrest).symm

theorem place_moved (h : c.GoesAlong move) (ch : Char) (rest : List Char) :
    (c.moved move).place (Lexeme.read mode (move c.position).line c.fresh ch rest) =
      (c.place (Lexeme.read mode c.position.line c.fresh ch rest)).moved move := by
  obtain ⟨more, hread⟩ | ⟨lexeme, hread, hline⟩ := Lexeme.read_line mode c.fresh ch rest
  · rw [hread, hread]
    simp only [place, Lexeme.wrong, skip_moved h, skip_zero]
    rfl
  · rw [hread, hread]
    cases houtcome : lexeme.outcome with
    | ok found =>
      obtain ⟨kind, text⟩ := found
      simp only [place, houtcome, skip_moved h]
      rfl
    | error flaw =>
      simp only [place, houtcome, skip_moved h, Scan.moved, Diagnostic.moved, hline flaw _ houtcome]
      rfl

theorem scan_moved (mode : Encoding) (h : c.GoesAlong move) : (c.moved move).scan mode = (c.scan mode).moved move := by
  unfold scan
  rw [show (c.moved move).rest = c.rest from rfl]
  cases Trivia.read c.rest with
  | unclosed =>
    simp only [skip_moved h]
    rfl
  | clear length =>
    simp only [skip_moved h]
    rw [show ((c.skip length).moved move).rest = (c.skip length).rest from rfl]
    cases (c.skip length).rest with
    | nil => rfl
    | cons ch rest => exact place_moved (h.skip length) ch rest

theorem tokens_moved (h : c.GoesAlong move) : (c.moved move).tokens mode = movedTokens move (c.tokens mode) := by
  induction c using scan_induction mode with
  | done c eof next hscan =>
    have hmoved := scan_moved mode h
    rw [hscan] at hmoved
    rw [tokens_of_done hscan, tokens_of_done hmoved]
    rfl
  | token c t next hscan ih =>
    have hmoved := scan_moved mode h
    rw [hscan] at hmoved
    obtain ⟨n, rfl⟩ := scan_token_next hscan
    rw [tokens_of_token hscan, tokens_of_token hmoved, ih (h.skip n)]
    cases (c.skip n).tokens mode <;> rfl
  | fault c d next hscan =>
    have hmoved := scan_moved mode h
    rw [hscan] at hmoved
    rw [tokens_of_fault hscan, tokens_of_fault hmoved]
    rfl

theorem goesAlong_inText {text : List Char} {start : Nat} (file : FileId) (h : c.rest <+: text.drop start)
    (hindex : c.position.index = 0) :
    c.GoesAlong fun p => Position.inText text file (start + p.index) := by
  intro n ch rest hrest
  have hn : n < c.rest.length := by
    by_contra hlong
    rw [rest_skip, drop_eq_nil_of_le (Nat.not_lt.mp hlong)] at hrest
    cases hrest
  have hskip : (c.skip n).position.index = n := by
    rw [skip_index, hindex]
    omega
  obtain ⟨behind, hbehind⟩ := h
  have hdrop : text.drop (start + n) = ch :: (rest ++ behind) := by
    rw [← drop_drop, ← hbehind, drop_append_of_le_length hn.le, ← rest_skip, hrest, cons_append]
  simp only [Position.after_index, hskip]
  exact (Position.after_inText file hdrop).symm

end Cursor

/-! ### Lines -/

namespace Cartridge

/-- Whether a line of the text starts at the index. -/
def startsLine (text : List Char) (index : Nat) : Bool := index == 0 || text[index - 1]? == some '\n'

/-- The index of the first line whose text, with all that follows it, has the property. -/
def firstLine? (p : List Char → Bool) (text : List Char) : Option Nat :=
  (range text.length).find? fun i => startsLine text i && p (text.drop i)

/-- The index where the code of a cartridge starts: behind the line with the mark, or at the end. -/
def codeStart (text : List Char) : Nat :=
  match firstLine? opensCode text with
  | none => text.length
  | some i => min (i + ((text.drop i).takeWhile (· != '\n')).length + 1) text.length

/-- The code of a cartridge, which goes up to the next line that opens a data section. -/
def codePart (text : List Char) : List Char :=
  let rest := text.drop (codeStart text)
  rest.take ((firstLine? opensData rest).getD rest.length)

variable {text body rest : List Char} {p : List Char → Bool}

theorem lines_line (h : '\n' ∉ body) (rest : List Char) :
    lines (body ++ '\n' :: rest) = (body ++ ['\n']) :: lines rest := by
  induction body with
  | nil => simp [lines]
  | cons c body ih =>
    obtain ⟨hc, hbody⟩ := not_or.mp fun hmem => h (mem_cons.mpr hmem)
    rw [cons_append, lines, if_neg (Ne.symm hc), ih hbody]
    rfl

theorem lines_last (h : '\n' ∉ body) (hne : body ≠ []) : lines body = [body] := by
  induction body with
  | nil => exact absurd rfl hne
  | cons c body ih =>
    obtain ⟨hc, hbody⟩ := not_or.mp fun hmem => h (mem_cons.mpr hmem)
    rw [lines, if_neg (Ne.symm hc)]
    cases body with
    | nil => rfl
    | cons d body => rw [ih hbody (cons_ne_nil d body)]

theorem lines_induction {motive : List Char → Prop} (nil : motive [])
    (line : ∀ body rest, '\n' ∉ body → motive rest → motive (body ++ '\n' :: rest))
    (last : ∀ body, '\n' ∉ body → body ≠ [] → motive body) (text : List Char) : motive text := by
  induction hn : text.length using Nat.strong_induction_on generalizing text with
  | _ n ih =>
    subst hn
    by_cases hfeed : '\n' ∈ text
    · obtain ⟨body, rest, rfl, hbody⟩ := eq_append_cons_of_mem hfeed
      exact line body rest hbody (ih rest.length (by simp; omega) rest rfl)
    · by_cases hempty : text = []
      · exact hempty ▸ nil
      · exact last text hfeed hempty

theorem startsLine_line (h : '\n' ∉ body) (rest : List Char) {i : Nat} (hi : i ≤ body.length) :
    startsLine (body ++ rest) i = (i == 0) := by
  cases i with
  | zero => rfl
  | succ i =>
    have hget : (body ++ rest)[i]? = some body[i] := by
      rw [getElem?_append_left hi, getElem?_eq_getElem hi]
    have hne : body[i] ≠ '\n' := fun heq => h (heq ▸ getElem_mem hi)
    simp [startsLine, hget, hne]

theorem startsLine_behind (body rest : List Char) (i : Nat) :
    startsLine (body ++ '\n' :: rest) (body.length + 1 + i) = startsLine rest i := by
  cases i with
  | zero => simp [startsLine]
  | succ i =>
    have hget : (body ++ '\n' :: rest)[body.length + 1 + i]? = rest[i]? := by
      rw [getElem?_append_right (by omega), show body.length + 1 + i - body.length = i + 1 by omega,
        getElem?_cons_succ]
    simp [startsLine, ← Nat.add_assoc, hget]

theorem firstLine?_line (h : '\n' ∉ body) (rest : List Char) :
    firstLine? p (body ++ '\n' :: rest) =
      if p (body ++ '\n' :: rest) then some 0 else (firstLine? p rest).map (body.length + 1 + ·) := by
  have hlength : (body ++ '\n' :: rest).length = body.length + 1 + rest.length := by simp; omega
  rw [firstLine?, hlength, range_add, find?_append]
  split
  next hp =>
    have hhead : (range (body.length + 1)).find?
        (fun i => startsLine (body ++ '\n' :: rest) i && p ((body ++ '\n' :: rest).drop i)) = some 0 := by
      simpa [startsLine] using hp
    rw [hhead, Option.some_or]
  next hp =>
    have hhead : (range (body.length + 1)).find?
        (fun i => startsLine (body ++ '\n' :: rest) i && p ((body ++ '\n' :: rest).drop i)) = none := by
      rw [find?_eq_none]
      intro i hi hstart
      rw [startsLine_line h _ (Nat.le_of_lt_succ (mem_range.mp hi)), Bool.and_eq_true, beq_iff_eq] at hstart
      obtain ⟨rfl, hstart⟩ := hstart
      exact hp hstart
    rw [hhead, Option.none_or, find?_map, firstLine?]
    refine congrArg _ (congrArg (find? · _) (funext fun i => ?_))
    rw [Function.comp_apply, startsLine_behind, Nat.add_assoc, drop_append, drop_of_length_le (by omega),
      nil_append, Nat.add_sub_cancel_left, Nat.add_comm 1 i, drop_succ_cons]

theorem firstLine?_last (h : '\n' ∉ body) (hne : body ≠ []) :
    firstLine? p body = if p body then some 0 else none := by
  have hstart : ∀ i < body.length, startsLine body i = (i == 0) := by
    intro i hi
    simpa using startsLine_line h [] hi.le
  split
  next hp =>
    obtain ⟨n, hn⟩ := Nat.exists_eq_succ_of_ne_zero (length_pos_iff.mpr hne).ne'
    rw [firstLine?, hn, range_succ_eq_map, find?_cons_of_pos]
    simpa [startsLine] using hp
  next hp =>
    rw [firstLine?, find?_eq_none]
    intro i hi hi'
    rw [hstart i (mem_range.mp hi), Bool.and_eq_true, beq_iff_eq] at hi'
    obtain ⟨rfl, hi'⟩ := hi'
    exact hp hi'

/-- The property looks at one line of the text alone. -/
def LooksAtLine (p : List Char → Bool) : Prop :=
  ∀ body rest, '\n' ∉ body → p (body ++ '\n' :: rest) = p (body ++ ['\n'])

theorem isPrefixOf_line {mark : List Char} (hmark : '\n' ∉ mark) (body rest : List Char) :
    mark.isPrefixOf (body ++ '\n' :: rest) = mark.isPrefixOf body := by
  induction mark generalizing body with
  | nil => cases body <;> rfl
  | cons c mark ih =>
    obtain ⟨hc, hmark⟩ := not_or.mp fun hmem => hmark (mem_cons.mpr hmem)
    cases body with
    | nil =>
      have hne : (c == '\n') = false := beq_eq_false_iff_ne.mpr (Ne.symm hc)
      rw [nil_append, isPrefixOf_cons_cons, hne]
      rfl
    | cons =>
      rw [cons_append, isPrefixOf_cons_cons, isPrefixOf_cons_cons, ih hmark]

theorem looksAtLine_opensCode : LooksAtLine opensCode := by
  intro body rest _
  unfold opensCode
  rw [isPrefixOf_line (by decide), isPrefixOf_line (by decide)]

theorem looksAtLine_opensData : LooksAtLine opensData := by
  have hmarks : ∀ mark ∈ dataMarks, '\n' ∉ mark := by decide
  intro body rest _
  unfold opensData
  refine Bool.eq_iff_iff.mpr ?_
  rw [any_eq_true, any_eq_true]
  refine exists_congr fun mark => and_congr_right fun hmark => ?_
  rw [isPrefixOf_line (hmarks mark hmark), isPrefixOf_line (hmarks mark hmark)]

/-- The first of the lines `mark :: others` of a text, and the text behind it. -/
def IsLine (mark rest : List Char) : Prop :=
  (∃ body, '\n' ∉ body ∧ mark = body ++ ['\n']) ∨ ('\n' ∉ mark ∧ mark ≠ [] ∧ rest = [])

theorem takeWhile_lines (hp : LooksAtLine p) (text : List Char) :
    let before := (lines text).takeWhile (!p ·)
    ((lines text).drop before.length = [] ∧ before.flatten = text ∧ firstLine? p text = none) ∨
      ∃ mark rest, (lines text).drop before.length = mark :: lines rest ∧ text = before.flatten ++ mark ++ rest ∧
        IsLine mark rest ∧ firstLine? p text = some before.flatten.length ∧
        before.flatten.count '\n' = before.length := by
  induction text using lines_induction with
  | nil => exact .inl ⟨rfl, rfl, rfl⟩
  | line body rest hbody ih =>
    rw [lines_line hbody, firstLine?_line hbody, takeWhile_cons, hp body rest hbody]
    cases hfound : p (body ++ ['\n']) with
    | true =>
      refine .inr ⟨body ++ ['\n'], rest, rfl, ?_, .inl ⟨body, hbody, rfl⟩, rfl, rfl⟩
      simp
    | false =>
      simp only [Bool.not_false, if_true, Bool.false_eq_true, if_false, length_cons, drop_succ_cons,
        flatten_cons]
      obtain ⟨hdrop, hflatten, hfirst⟩ | ⟨mark, others, hdrop, htext, hline, hfirst, hcount⟩ := ih
      · refine .inl ⟨hdrop, ?_, ?_⟩
        · rw [hflatten, append_assoc, singleton_append]
        · rw [hfirst]
          rfl
      · refine .inr ⟨mark, others, hdrop, ?_, hline, ?_, ?_⟩
        · conv_lhs => rw [htext]
          simp
        · rw [hfirst, Option.map_some, length_append, length_append, length_singleton]
        · rw [count_append, hcount, count_append, count_eq_zero_of_not_mem hbody]
          simp [Nat.add_comm]
  | last body hbody hne =>
    rw [lines_last hbody hne, firstLine?_last hbody hne, takeWhile_cons]
    cases hfound : p body with
    | true => exact .inr ⟨body, [], rfl, (append_nil body).symm, .inr ⟨hbody, hne, rfl⟩, rfl, rfl⟩
    | false => exact .inl ⟨rfl, append_nil body, rfl⟩

theorem startsLine_last (front : List Char) (h : '\n' ∉ body) (hne : body ≠ []) :
    startsLine (front ++ body) (front ++ body).length = false := by
  have hpos := length_pos_iff.mpr hne
  have hlength : (front ++ body).length = front.length + (body.length - 1) + 1 := by
    rw [length_append]
    omega
  have hget : (front ++ body)[front.length + (body.length - 1)]? = body[body.length - 1]? := by
    rw [getElem?_append_right (Nat.le_add_right ..), Nat.add_sub_cancel_left]
  have hfeed : body[body.length - 1]? ≠ some '\n' := fun hlast => h (mem_of_getElem? hlast)
  rw [startsLine, hlength, Nat.add_sub_cancel, hget]
  simpa using hfeed

theorem count_lines (text : List Char) :
    (lines text).length = text.count '\n' + if startsLine text text.length then 0 else 1 := by
  induction text using lines_induction with
  | nil => rfl
  | line body rest hbody ih =>
    have hstart : startsLine (body ++ '\n' :: rest) (body ++ '\n' :: rest).length = startsLine rest rest.length := by
      rw [← startsLine_behind body rest rest.length, length_append, length_cons]
      congr 1
      omega
    rw [hstart, lines_line hbody, length_cons, ih, count_append, count_eq_zero_of_not_mem hbody,
      count_cons_self]
    omega
  | last body hbody hne =>
    have hstart : startsLine body body.length = false := startsLine_last [] hbody hne
    rw [hstart, lines_last hbody hne, count_eq_zero_of_not_mem hbody]
    rfl

theorem inText_of_startsLine {index : Nat} (h : startsLine text index = true) (file : FileId) :
    Position.inText text file index = { line := 1 + (text.take index).count '\n', index, file } := by
  have hcolumn : (text.take index).reverse.takeWhile (· != '\n') = [] := by
    cases index with
    | zero => rfl
    | succ i =>
      have hfeed : text[i]? = some '\n' := by simpa [startsLine] using h
      rw [take_add_one, hfeed, Option.toList_some, reverse_append, reverse_singleton,
        singleton_append]
      rfl
  unfold Position.inText
  rw [hcolumn]
  rfl

theorem flatten_takeWhile_lines (hp : LooksAtLine p) (text : List Char) :
    ((lines text).takeWhile (!p ·)).flatten = text.take ((firstLine? p text).getD text.length) := by
  obtain ⟨-, hflatten, hfirst⟩ | ⟨mark, rest, -, htext, -, hfirst, -⟩ := takeWhile_lines hp text
  · rw [hfirst, Option.getD_none, take_length, hflatten]
  · rw [hfirst, Option.getD_some]
    generalize ((lines text).takeWhile (!p ·)).flatten = front at htext ⊢
    rw [htext, append_assoc, take_left]

theorem codeStart_of_mark {front mark : List Char} (htext : text = front ++ mark ++ rest) (hline : IsLine mark rest)
    (hfirst : firstLine? opensCode text = some front.length) : codeStart text = (front ++ mark).length := by
  have hlength : (front ++ mark).length ≤ text.length := by
    rw [htext]
    exact (prefix_append ..).length_le
  have hdrop : text.drop front.length = mark ++ rest := by rw [htext, append_assoc, drop_left]
  unfold codeStart
  rw [hfirst]
  dsimp only
  rw [hdrop]
  obtain ⟨body, hbody, rfl⟩ | ⟨hmark, -, rfl⟩ := hline
  · have hwhile : (body ++ ['\n'] ++ rest).takeWhile (· != '\n') = body := by
      rw [append_assoc, takeWhile_append_of_pos fun c hc => by simpa using ne_of_mem_of_not_mem hc hbody]
      simp
    rw [hwhile]
    simp only [length_append, length_singleton] at hlength ⊢
    omega
  · have hwhile : (mark ++ []).takeWhile (· != '\n') = mark := by
      rw [takeWhile_append_of_pos fun c hc => by simpa using ne_of_mem_of_not_mem hc hmark, takeWhile_nil,
        append_nil]
    have hwhole : text.length = (front ++ mark).length := by rw [htext, append_nil]
    rw [hwhile, hwhole, length_append]
    omega

theorem code_cartridge (h : header.isPrefixOf text = true) (file : FileId) :
    (startsLine text (codeStart text) = true →
      code text file = { rest := codePart text, position := Position.inText text file (codeStart text) }) ∧
    (startsLine text (codeStart text) = false → codePart text = [] ∧ codeStart text = text.length ∧
      code text file = { rest := [], position := { line := text.count '\n' + 2, index := text.length, file } }) := by
  unfold code
  rw [if_pos h]
  dsimp only
  obtain ⟨hdrop, hflatten, hfirst⟩ | ⟨mark, rest, hdrop, htext, hline, hfirst, hcount⟩ :=
    takeWhile_lines looksAtLine_opensCode text
  · have hstart : codeStart text = text.length := by
      unfold codeStart
      rw [hfirst]
    have hpart : codePart text = [] := by
      unfold codePart
      rw [hstart, drop_length, take_nil]
    rw [hdrop, hstart, hpart, count_lines]
    refine ⟨fun hend => ?_, fun hend => ⟨rfl, rfl, ?_⟩⟩
    · rw [inText_of_startsLine hend, take_length, if_pos hend, Nat.add_zero, Nat.add_comm]
    · rw [hend]
      rfl
  · have hstart := codeStart_of_mark htext hline hfirst
    generalize (lines text).takeWhile (!opensCode ·) = before at hdrop htext hfirst hcount hstart ⊢
    rw [hdrop]
    dsimp only
    rw [← length_append, ← hstart]
    have hbehind : text.drop (codeStart text) = rest := by
      rw [hstart]
      conv_lhs => rw [htext, drop_left]
    have htake : text.take (codeStart text) = before.flatten ++ mark := by
      rw [hstart]
      conv_lhs => rw [htext, take_left]
    have hpart : codePart text = ((lines rest).takeWhile (!opensData ·)).flatten := by
      unfold codePart
      rw [hbehind, flatten_takeWhile_lines looksAtLine_opensData]
    rw [← hpart]
    obtain ⟨body, hbody, rfl⟩ | ⟨hmark, hne, rfl⟩ := hline
    · have hfeed : startsLine text (codeStart text) = true := by
        rw [hstart]
        simp [startsLine, htext]
      refine ⟨fun _ => ?_, fun hend => absurd hfeed (by simp [hend])⟩
      have hfeeds : 1 + (text.take (codeStart text)).count '\n' = before.length + 2 := by
        rw [htake, count_append, hcount, count_append, count_eq_zero_of_not_mem hbody,
          count_singleton_self]
        omega
      rw [inText_of_startsLine hfeed, hfeeds]
    · have hwhole : codeStart text = text.length := by rw [hstart, htext, append_nil]
      have hinside : startsLine text (codeStart text) = false := by
        rw [hstart, htext, append_nil]
        exact startsLine_last before.flatten hmark hne
      have hfeeds : text.count '\n' = before.length := by
        rw [htext, append_nil, count_append, hcount, count_eq_zero_of_not_mem hmark, Nat.add_zero]
      refine ⟨fun hend => absurd hend (by simp [hinside]), fun _ => ⟨hpart, hwhole, ?_⟩⟩
      rw [hpart, hfeeds, hwhole]
      rfl

end Cartridge

/-- A cartridge is tokenized as its code alone is, with every position moved to the real one in the cartridge, exactly if
a line starts behind the line with the mark, or at the end where no line has the mark. Otherwise there is no code, and
the end of the text is placed on a line behind the last one. -/
theorem tokenize_cartridge (mode : Encoding) (text : String) (file : FileId)
    (hheader : Cartridge.header <+: text.toList) (hcode : ¬Cartridge.header <+: Cartridge.codePart text.toList) :
    let start := Cartridge.codeStart text.toList
    let code := Cartridge.codePart text.toList
    (tokenize mode text file =
        movedTokens (fun p => Position.inText text.toList file (start + p.index)) (tokenize mode (String.ofList code) file) ↔
      Cartridge.startsLine text.toList start = true) ∧
    (Cartridge.startsLine text.toList start = false → code = [] ∧ tokenize mode text file =
      .ok [Token.eof { line := text.toList.count '\n' + 2, index := text.toList.length, file }]) := by
  intro start code
  obtain ⟨hreal, hbelow⟩ := Cartridge.code_cartridge (List.isPrefixOf_iff_prefix.mpr hheader) file
  have halone : Cartridge.code (String.ofList code).toList file = { rest := code, position := { file } } := by
    rw [String.toList_ofList, Cartridge.code, if_neg (mt List.isPrefixOf_iff_prefix.mp hcode)]
  have hend : Cartridge.startsLine text.toList start = false → code = [] ∧ tokenize mode text file =
      .ok [Token.eof { line := text.toList.count '\n' + 2, index := text.toList.length, file }] := by
    intro hfalse
    obtain ⟨hnil, -, hplace⟩ := hbelow hfalse
    refine ⟨hnil, ?_⟩
    rw [tokenize, hplace]
    exact Cursor.tokens_of_done (Cursor.scan_nil rfl)
  refine ⟨⟨fun hmoved => ?_, fun htrue => ?_⟩, hend⟩
  · by_contra hfalse
    rw [Bool.not_eq_true] at hfalse
    obtain ⟨hnil, hlast⟩ := hend hfalse
    have heof : tokenize mode (String.ofList code) file = .ok [Token.eof { file }] := by
      rw [tokenize, halone, hnil]
      exact Cursor.tokens_of_done (Cursor.scan_nil rfl)
    rw [hlast, heof, movedTokens, Except.ok.injEq, List.map_cons, List.cons.injEq] at hmoved
    have hline := congrArg (fun t : Token => t.span.start.line) hmoved.1
    simp only [Token.moved, Token.eof, Span.point, Span.moved, Position.inText, Nat.add_zero] at hline
    have hle := (List.take_sublist start text.toList).count_le '\n'
    omega
  · have hprefix : code <+: text.toList.drop start := List.take_prefix ..
    have hplace : Cartridge.code text.toList file =
        ({ rest := code, position := { file } } : Cursor).moved
          fun p => Position.inText text.toList file (start + p.index) := hreal htrue
    rw [tokenize, tokenize, halone, hplace]
    exact Cursor.tokens_moved (Cursor.goesAlong_inText file hprefix rfl)

/-- A cartridge whose code ends inside a long string, since a data section opens there. -/
def interrupted : String := "pico-8 cartridge\nversion 8\n__lua__\nx=[[y\n__gfx__\n]]"

/-- A string that a data section interrupts is unfinished in the cartridge as it is in the code alone. -/
theorem tokenize_cartridge_interrupted :
    Cartridge.header <+: interrupted.toList ∧ Cartridge.codePart interrupted.toList = "x=[[y\n".toList ∧
    tokenize .identity interrupted 0 =
      movedTokens (fun p => Position.inText interrupted.toList 0 (35 + p.index)) (tokenize .identity "x=[[y\n" 0) := by
  have hheader : Cartridge.header <+: interrupted.toList := by decide +kernel
  have hpart : Cartridge.codePart interrupted.toList = "x=[[y\n".toList := by decide +kernel
  have hstart : Cartridge.codeStart interrupted.toList = 35 := by decide +kernel
  have hcode : ¬Cartridge.header <+: Cartridge.codePart interrupted.toList := by
    rw [hpart]
    decide +kernel
  have hline : Cartridge.startsLine interrupted.toList (Cartridge.codeStart interrupted.toList) = true := by
    rw [hstart]
    decide +kernel
  have hmoved := (tokenize_cartridge .identity interrupted 0 hheader hcode).1.mpr hline
  rw [hstart, hpart, String.ofList_toList] at hmoved
  exact ⟨hheader, hpart, hmoved⟩

/-- A cartridge that ends within the line of its mark. -/
def unended : String := "pico-8 cartridge\n__lua__"

/-- The code of a cartridge that ends within the line of its mark is empty, and its end is said to be on the line behind
the mark, which does not exist. -/
theorem tokenize_cartridge_unended :
    Cartridge.header <+: unended.toList ∧ Cartridge.codeStart unended.toList = 24 ∧
    Cartridge.codePart unended.toList = [] ∧
    tokenize .identity unended 0 = .ok [Token.eof ⟨3, 1, 24, 0⟩] ∧
    movedTokens (fun p => Position.inText unended.toList 0 (24 + p.index)) (tokenize .identity "" 0) =
      .ok [Token.eof ⟨2, 8, 24, 0⟩] := by
  have hcode : Cartridge.code unended.toList 0 = { rest := [], position := ⟨3, 1, 24, 0⟩ } := by decide +kernel
  have halone : Cartridge.code "".toList 0 = { rest := [], position := {} } := by decide +kernel
  have hreal : Position.inText unended.toList 0 24 = ⟨2, 8, 24, 0⟩ := by decide +kernel
  refine ⟨by decide +kernel, by decide +kernel, by decide +kernel, ?_, ?_⟩
  · rw [tokenize, hcode]
    exact Cursor.tokens_of_done (Cursor.scan_nil rfl)
  · rw [tokenize, halone, Cursor.tokens_of_done (Cursor.scan_nil rfl)]
    simp only [movedTokens, List.map_cons, List.map_nil, Token.moved, Token.eof, Span.point, Span.moved, Nat.add_zero, hreal]

end CartLua
