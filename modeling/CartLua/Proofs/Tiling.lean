import CartLua.Proofs.Continuation
import CartLua.Proofs.Stream
/-!
# Tokens tile the text

The tokens of a text stand side by side in it, and nothing is left between them but blanks and comments. Every token is
written in the text as it says, apart from an include line, which keeps its target only.
-/

namespace CartLua

open List

/-! ### Long brackets -/

namespace LongBracket

/-- Behind `inner` the bracket that closes the level stands for the first time. -/
def ClosesBehind (level : Nat) (inner : List Char) : Prop :=
  ∀ n < inner.length, ¬closing level <+: (inner ++ closing level).drop n

variable {level n : Nat} {text contents : List Char}

theorem find?_spec {mark : List Char} (h : find? mark text = some n) :
    mark <+: text.drop n ∧ ∀ k < n, ¬mark <+: text.drop k := by
  induction text generalizing n with
  | nil => cases h
  | cons c text ih =>
    rw [find?] at h
    split at h
    next hmark =>
      cases h
      exact ⟨List.isPrefixOf_iff_prefix.mp hmark, fun k hk => absurd hk k.not_lt_zero⟩
    next hmark =>
      obtain ⟨m, hm, rfl⟩ := Option.map_eq_some_iff.mp h
      obtain ⟨hfound, hfirst⟩ := ih hm
      refine ⟨hfound, fun k hk hprefix => ?_⟩
      cases k with
      | zero => exact hmark (List.isPrefixOf_iff_prefix.mpr hprefix)
      | succ k => exact hfirst k (Nat.lt_of_succ_lt_succ hk) hprefix

theorem not_closing_lineEnd (level : Nat) {k : Nat} (h : k < lineEnd text) : ¬closing level <+: text.drop k := by
  have hhead : ∀ c rest, c ≠ ']' → ¬closing level <+: c :: rest := by
    intro c rest hc hprefix
    rw [closing, cons_prefix_cons] at hprefix
    exact hc hprefix.1.symm
  unfold lineEnd at h
  split at h
  · obtain rfl | rfl : k = 0 ∨ k = 1 := by omega
    · exact hhead _ _ (by decide)
    · exact hhead _ _ (by decide)
  · obtain rfl : k = 0 := by omega
    exact hhead _ _ (by decide)
  · obtain rfl : k = 0 := by omega
    exact hhead _ _ (by decide)
  · omega

theorem take_of_read? {length : Nat} (hlevel : level? text = some level) (hread : read? level text = some (contents, length)) :
    ∃ inner, text.take length = opening level ++ inner ++ closing level ∧ ClosesBehind level inner := by
  unfold read? at hread
  obtain ⟨n, hn, hfound⟩ := Option.map_eq_some_iff.mp hread
  obtain ⟨-, rfl⟩ := Prod.mk.inj hfound
  obtain ⟨hclosing, hfirst⟩ := find?_spec hn
  have htext := opening_of_level? hlevel
  generalize text.drop (level + 2) = behind at hclosing hfirst htext hn ⊢
  have hbound := length_of_find? hn
  rw [length_drop, length_closing] at hbound
  rw [drop_drop] at hclosing
  obtain ⟨rest, hrest⟩ := hclosing
  have hinner : (behind.take (lineEnd behind + n)).length = lineEnd behind + n := by
    rw [length_take]
    omega
  have hbehind : behind.take (lineEnd behind + n) ++ closing level ++ rest = behind := by
    rw [append_assoc, hrest, take_append_drop]
  have hwhole : text = opening level ++ behind.take (lineEnd behind + n) ++ closing level ++ rest := by
    rw [append_assoc, append_assoc, ← append_assoc (behind.take _), hbehind, ← htext]
  refine ⟨behind.take (lineEnd behind + n), ?_, fun k hk hprefix => ?_⟩
  · rw [hwhole]
    refine take_left' ?_
    rw [length_append, length_append, length_opening, length_closing, hinner]
    omega
  · have hearly : closing level <+: behind.drop k := by
      rw [← hbehind, drop_append_of_le_length (by rw [length_append]; omega)]
      exact hprefix.trans (prefix_append ..)
    by_cases hline : k < lineEnd behind
    · exact not_closing_lineEnd level hline hearly
    · refine hfirst (k - lineEnd behind) (by omega) ?_
      rw [drop_drop, Nat.add_sub_cancel' (Nat.not_lt.mp hline)]
      exact hearly

end LongBracket

/-! ### What stands between tokens -/

namespace Trivia

/-- The text `gap` is made of blanks and comments where `behind` follows it. A comment that is not a long one goes up to the
end of its line or of the text. -/
inductive Fills (behind : List Char) : (gap : List Char) → Prop where
  | nil : Fills behind []
  | blank {c : Char} {gap : List Char} (hblank : isBlank c = true) (hgap : Fills behind gap) : Fills behind (c :: gap)
  | dashes {line gap : List Char} (hline : '\n' ∉ line) (hend : ∀ c ∈ (gap ++ behind).head?, c = '\n')
    (hshort : LongBracket.level? (line ++ gap ++ behind) = none) (hgap : Fills behind gap) :
    Fills behind ('-' :: '-' :: (line ++ gap))
  | slashes {line gap : List Char} (hline : '\n' ∉ line) (hend : ∀ c ∈ (gap ++ behind).head?, c = '\n')
    (hgap : Fills behind gap) : Fills behind ('/' :: '/' :: (line ++ gap))
  | long {level : Nat} {inner gap : List Char} (hinner : LongBracket.ClosesBehind level inner) (hgap : Fills behind gap) :
    Fills behind ('-' :: '-' :: (LongBracket.opening level ++ inner ++ LongBracket.closing level ++ gap))

variable {text rest gap behind : List Char} {c : Char} {n : Nat}

theorem Fills.blanks {blanks : List Char} (h : ∀ b ∈ blanks, isBlank b = true) (hgap : Fills behind gap) :
    Fills behind (blanks ++ gap) := by
  induction blanks with
  | nil => exact hgap
  | cons b blanks ih =>
    exact .blank (h b mem_cons_self) (ih fun d hd => h d (mem_cons_of_mem _ hd))

theorem take_lineLength (text : List Char) :
    '\n' ∉ text.take (lineLength text) ∧ ∀ c ∈ (text.drop (lineLength text)).head?, c = '\n' := by
  unfold lineLength
  induction text with
  | nil => exact ⟨not_mem_nil, nofun⟩
  | cons d text ih =>
    by_cases hd : d = '\n'
    · subst hd
      exact ⟨not_mem_nil, fun c hc => (Option.some.inj hc).symm⟩
    · rw [takeWhile_cons_of_pos (by simp [hd]), length_cons, take_succ_cons, drop_succ_cons]
      exact ⟨not_mem_cons_of_ne_of_not_mem (Ne.symm hd) ih.1, ih.2⟩

theorem Fills.comment (hgap : Fills behind gap) (h : comment? (c :: rest) = some (some n))
    (hrest : rest.drop n = gap ++ behind) : Fills behind (c :: (rest.take n ++ gap)) := by
  unfold comment? at h
  split at h
  next inner heq =>
    obtain ⟨rfl, rfl⟩ := cons.inj heq
    split at h
    next level hlevel =>
      obtain ⟨⟨contents, length⟩, hread, rfl⟩ := Option.map_eq_some_iff.mp (Option.some.inj h)
      obtain ⟨found, htake, hcloses⟩ := LongBracket.take_of_read? hlevel hread
      rw [take_succ_cons, htake]
      exact .long hcloses hgap
    next hlevel =>
      cases h
      obtain ⟨hline, hend⟩ := take_lineLength inner
      rw [drop_succ_cons] at hrest
      rw [hrest] at hend
      refine .dashes hline hend ?_ hgap
      rw [append_assoc, ← hrest, take_append_drop]
      exact hlevel
  next inner heq =>
    obtain ⟨rfl, rfl⟩ := cons.inj heq
    cases h
    obtain ⟨hline, hend⟩ := take_lineLength inner
    rw [drop_succ_cons] at hrest
    rw [hrest] at hend
    exact .slashes hline hend hgap
  · cases h

theorem fills_of_read (h : read text = .clear n) :
    ∃ gap behind, text = gap ++ behind ∧ gap.length = n ∧ Fills behind gap := by
  have hblanks (text : List Char) : ∀ b ∈ text.takeWhile isBlank, isBlank b = true := fun b hb => List.mem_takeWhile_imp hb
  have htext (text : List Char) : text = text.takeWhile isBlank ++ text.drop (text.takeWhile isBlank).length := by
    conv_lhs => rw [← List.take_append_drop (text.takeWhile isBlank).length text,
      ← List.prefix_iff_eq_take.mp (List.takeWhile_prefix _)]
  refine clear_induction ?nil ?token ?comment h
  case nil | token =>
    intro text
    intros
    exact ⟨_, _, htext text, rfl, List.append_nil (text.takeWhile isBlank) ▸ .blanks (hblanks text) .nil⟩
  case comment =>
    rintro text c rest skipped _ hrest hcomment ⟨gap, behind, hbehind, rfl, hfills⟩
    obtain ⟨hskipped, -⟩ := comment?_append hcomment []
    refine ⟨text.takeWhile isBlank ++ c :: (rest.take skipped ++ gap), behind, ?_, ?_,
      .blanks (hblanks text) (hfills.comment hcomment hbehind)⟩
    · rw [List.append_assoc, List.cons_append, List.append_assoc, ← hbehind, List.take_append_drop, ← hrest]
      exact htext text
    · rw [List.length_append, List.length_cons, List.length_append, List.length_take]
      omega

end Trivia

/-! ### Lexemes -/

namespace Lexeme

variable {mode : Encoding} {line : Nat} {fresh : Bool} {c : Char} {rest text : List Char}

theorem wordKind_ne_directive (word : List Char) : wordKind word ≠ .directive := by
  obtain ⟨_, hkind⟩ | hkind | ⟨_, hkind⟩ | hkind := wordKind_cases word <;> rw [hkind] <;> nofun

theorem directive_of_read (h : (read mode line fresh c rest).outcome = .ok (.directive, text)) :
    c = '#' ∧ "include".toList <+: rest ∧ read mode line fresh c rest = directive rest := by
  unfold read at h ⊢
  split at h
  · obtain ⟨_, hkind⟩ := reading_quoted h
    cases hkind
  next hquote =>
    rw [if_neg hquote]
    split at h
    · obtain ⟨_, hkind⟩ := reading_numeral h
      cases hkind
    next hdigit =>
      rw [if_neg hdigit]
      split at h
      · obtain ⟨_, hkind⟩ := reading_longString h
        cases hkind
      · split at h
        next hline =>
          rw [if_pos hline]
          exact ⟨hline.1, isPrefixOf_iff_prefix.mp hline.2.2, rfl⟩
        · split at h
          · exact absurd (Prod.mk.inj (Except.ok.inj h)).1 (wordKind_ne_directive _)
          · unfold sign at h
            split at h
            · cases h
            · split at h <;> cases h

theorem directive_include (line : List Char) :
    directive ("include".toList ++ line) =
      ⟨Trivia.lineLength line + 7, .ok (.directive, trimBlanks (line.take (Trivia.lineLength line)))⟩ := by
  have hline : ("include".toList ++ line).takeWhile (· != '\n') = "include".toList ++ line.takeWhile (· != '\n') :=
    takeWhile_append_of_pos (all_eq_true.mp (by decide))
  have htake : line.take (Trivia.lineLength line) = line.takeWhile (· != '\n') :=
    (prefix_iff_eq_take.mp (List.takeWhile_prefix _)).symm
  simp only [directive, hline, htake, length_append, Nat.add_comm]
  rfl

end Lexeme

/-! ### Places of a text -/

/-- The characters of a text from the index `start` up to the index `stop`. -/
def slice (text : List Char) (start stop : Nat) : List Char := (text.take stop).drop start

theorem slice_append (front middle back : List Char) :
    slice (front ++ middle ++ back) front.length (front.length + middle.length) = middle := by
  rw [slice, ← length_append, take_left, drop_left]

namespace Cursor

variable {mode : Encoding} {text : List Char} {c next : Cursor} {t : Token}

/-- The place stands where it says in a text that ends with what is still to come. -/
def StandsIn (text : List Char) (c : Cursor) : Prop := ∃ front, text = front ++ c.rest ∧ front.length = c.position.index

theorem StandsIn.skip (h : c.StandsIn text) (n : Nat) :
    (c.skip n).StandsIn text ∧ slice text c.position.index (c.skip n).position.index = c.rest.take n := by
  obtain ⟨front, rfl, hindex⟩ := h
  have hindex' : (c.skip n).position.index = front.length + (c.rest.take n).length := by
    rw [skip_index, hindex, length_take]
  have htext : front ++ c.rest = front ++ c.rest.take n ++ c.rest.drop n := by
    rw [append_assoc, take_append_drop]
  refine ⟨⟨front ++ c.rest.take n, ?_, ?_⟩, ?_⟩
  · rw [rest_skip, htext]
  · rw [length_append, hindex']
  · rw [hindex', ← hindex, htext, slice_append]

theorem StandsIn.drop (h : c.StandsIn text) : text.drop c.position.index = c.rest := by
  obtain ⟨front, rfl, hindex⟩ := h
  rw [← hindex, drop_left]

end Cursor

/-- The token is written in the text where it says. An include line has its mark and the rest of the line there. -/
def Token.IsWritten (text : List Char) (t : Token) : Prop :=
  (t.isDirective = false → t.text = String.ofList (slice text t.span.start.index t.span.stop.index)) ∧
    (t.isDirective = true → ∃ line, slice text t.span.start.index t.span.stop.index = "#include".toList ++ line ∧
      '\n' ∉ line ∧ (∀ c ∈ (text.drop t.span.stop.index).head?, c = '\n') ∧ t.text = String.ofList (trimBlanks line))

namespace Cursor

variable {mode : Encoding} {text : List Char} {c next : Cursor} {t : Token}

theorem StandsIn.scan_token (h : c.StandsIn text) (hscan : c.scan mode = .token t next) :
    next.StandsIn text ∧ next.position.index = t.span.stop.index ∧
      Trivia.Fills (text.drop t.span.start.index) (slice text c.position.index t.span.start.index) ∧ t.IsWritten text := by
  obtain ⟨n, ch, rest, htrivia, hrest, lexeme, word, hread, houtcome, htext, rfl, hspan⟩ := Cursor.scan_token hscan
  obtain ⟨gap, behind, hgap, rfl, hfills⟩ := Trivia.fills_of_read htrivia
  obtain ⟨hstart, hskipped⟩ := h.skip gap.length
  have hbehind : (c.skip gap.length).rest = behind := by rw [rest_skip, hgap, drop_left]
  rw [hgap, take_left] at hskipped
  generalize c.skip gap.length = start at *
  obtain ⟨hnext, hpassed⟩ := hstart.skip (lexeme.more + 1)
  have hstop := hnext.drop
  rw [rest_skip, hrest] at hstop
  rw [hrest] at hpassed
  have hstart' : t.span.start = start.position := by rw [hspan]; rfl
  have hstop' : t.span.stop = (start.skip (lexeme.more + 1)).position := by rw [hspan]; rfl
  rw [Token.IsWritten, hstart', hstop', hskipped, hstart.drop, hbehind, hpassed, hstop]
  refine ⟨hnext, rfl, hfills, fun hplain => ?_, fun hdirective => ?_⟩
  · have hkind : t.kind ≠ .directive := by
      intro hkind
      rw [Token.isDirective, hkind] at hplain
      cases hplain
    obtain ⟨more, -, htaken⟩ := Lexeme.isTaken_read hread houtcome hkind
    rw [htaken] at houtcome ⊢
    rw [htext, ← (Prod.mk.inj (Except.ok.inj houtcome)).2]
    rfl
  · have hkind : t.kind = .directive := by
      rw [Token.isDirective] at hdirective
      split at hdirective
      · assumption
      · cases hdirective
    subst hread
    rw [hkind] at houtcome
    obtain ⟨rfl, ⟨line, rfl⟩, hread⟩ := Lexeme.directive_of_read houtcome
    rw [hread, Lexeme.directive_include] at houtcome ⊢
    obtain ⟨hline, hend⟩ := Trivia.take_lineLength line
    refine ⟨line.take (Trivia.lineLength line), rfl, hline, hend, ?_⟩
    rw [htext, ← (Prod.mk.inj (Except.ok.inj houtcome)).2]

theorem StandsIn.scan_done {eof : Token} (h : c.StandsIn text) (hscan : c.scan mode = .done eof next) :
    eof.isEof = true ∧ eof.span = Span.point next.position ∧ next.position.index = text.length ∧
      Trivia.Fills [] (text.drop c.position.index) := by
  obtain ⟨n, htrivia, rfl, hend, rfl⟩ := trivia_of_done hscan
  obtain ⟨gap, behind, hgap, rfl, hfills⟩ := Trivia.fills_of_read htrivia
  obtain ⟨front, htext, hindex⟩ := (h.skip gap.length).1
  rw [hend, append_nil] at htext
  rw [rest_skip, hgap, drop_left] at hend
  subst htext
  rw [h.drop, hgap, hend, append_nil, ← hend]
  exact ⟨rfl, rfl, hindex.symm, hfills⟩

end Cursor

/-- The spans lie side by side in the text, with nothing but blanks and comments between them. -/
def SideBySide (text : List Char) (spans : List Span) : Prop :=
  spans.IsChain fun a b => Trivia.Fills (text.drop b.start.index) (slice text a.stop.index b.start.index)

theorem Cursor.StandsIn.tokens {mode : Encoding} {text : List Char} {c : Cursor} {ts : List Token} (h : c.StandsIn text)
    (htokens : c.tokens mode = .ok ts) :
    ∃ body eof, ts = body ++ [eof] ∧ (∀ t ∈ body, t.isEof = false ∧ t.IsWritten text) ∧ eof.isEof = true ∧
      eof.span.start.index = text.length ∧ eof.span.stop.index = text.length ∧
      SideBySide text (Span.point c.position :: ts.map (·.span)) := by
  induction c, ts, htokens using Cursor.tokens_induction with
  | done c eof next hscan =>
    obtain ⟨heof, hspan, hindex, hfills⟩ := h.scan_done hscan
    refine ⟨[], eof, rfl, nofun, heof, ?_, ?_, ?_⟩
    · rw [hspan]
      exact hindex
    · rw [hspan]
      exact hindex
    · refine isChain_pair.mpr ?_
      show Trivia.Fills (text.drop eof.span.start.index) (slice text c.position.index eof.span.start.index)
      rw [hspan, Span.point, hindex, slice, take_length, drop_length]
      exact hfills
  | token c t next others hscan _ ih =>
    obtain ⟨hnext, hstop, hfills, hwritten⟩ := h.scan_token hscan
    obtain ⟨body, eof, rfl, hbody, heof, hstart, hend, hchain⟩ := ih hnext
    refine ⟨t :: body, eof, rfl, ?_, heof, hstart, hend, ?_⟩
    · exact forall_mem_cons.mpr ⟨⟨isEof_of_scan hscan, hwritten⟩, hbody⟩
    · obtain ⟨hhead, htail⟩ := isChain_cons.mp hchain
      refine isChain_cons_cons.mpr ⟨hfills, isChain_cons.mpr ⟨fun b hb => ?_, htail⟩⟩
      rw [← hstop]
      exact hhead b hb

/-! ### The code of a text -/

namespace Cartridge

theorem flatten_lines (text : List Char) : (lines text).flatten = text := by
  fun_induction lines text with
  | case1 => rfl
  | case2 rest ih => rw [flatten_cons, ih, singleton_append]
  | case3 c rest _ hlines ih =>
    rw [hlines] at ih
    rw [← ih]
    rfl
  | case4 c rest _ line others hlines ih =>
    rw [hlines, flatten_cons] at ih
    rw [flatten_cons, cons_append, ih]

theorem standsIn_code (text : List Char) (file : FileId) :
    (code text file).StandsIn (text.take ((code text file).position.index + (code text file).rest.length)) := by
  have hpart : ∀ front rest behind : List Char, text = front ++ rest ++ behind →
      text.take (front.length + rest.length) = front ++ rest := by
    rintro front rest behind rfl
    rw [← length_append, take_left]
  unfold code
  split
  · have hlines := take_append_drop ((lines text).takeWhile (!opensCode ·)).length (lines text)
    rw [← prefix_iff_eq_take.mp (List.takeWhile_prefix _)] at hlines
    dsimp only
    generalize (lines text).takeWhile (!opensCode ·) = before at hlines ⊢
    split
    · exact ⟨text, hpart text [] [] (by simp), rfl⟩
    next mark behind hdrop =>
      generalize hregion : behind.takeWhile (!opensData ·) = region
      obtain ⟨others, hothers⟩ : region <+: behind := hregion ▸ takeWhile_prefix _
      have htext : text = (before.flatten ++ mark) ++ region.flatten ++ others.flatten := by
        rw [← flatten_lines text, ← hlines, hdrop, ← hothers]
        simp
      refine ⟨before.flatten ++ mark, ?_, length_append⟩
      rw [← hpart _ _ _ htext, length_append]
  · exact ⟨[], by simp, rfl⟩

end Cartridge

/-- The tokens of a text tile its code. They are in order and none but the last is empty, every one is written in the text
where it says, the last stands at the end of the code, and blanks and comments fill what is left from the start of the
code up to there. -/
theorem tokenize_tiles (mode : Encoding) (text : String) (file : FileId) (ts : List Token)
    (h : tokenize mode text file = .ok ts) :
    let code := Cartridge.code text.toList file
    let source := text.toList.take (code.position.index + code.rest.length)
    source.drop code.position.index = code.rest ∧ ts.Pairwise Token.Before ∧
      SideBySide source (Span.point code.position :: ts.map (·.span)) ∧
      ∃ body eof, ts = body ++ [eof] ∧ (∀ t ∈ body, t.isEof = false ∧ t.IsWritten source) ∧
        eof.isEof = true ∧ eof.span.start.index = source.length ∧ eof.span.stop.index = source.length := by
  intro code source
  have hcode : code.StandsIn source := Cartridge.standsIn_code text.toList file
  obtain ⟨body, eof, hts, hbody, heof, hstart, hstop, hchain⟩ := hcode.tokens h
  exact ⟨hcode.drop, (Cursor.ordered_of_tokens h).1, hchain, body, eof, hts, hbody, heof, hstart, hstop⟩

theorem eq_ok_of_isSome {ε α : Type} {r : Except ε (List α)} (h : r.toOption.isSome = true) :
    r = .ok (r.toOption.getD []) := by
  cases r with
  | error => cases h
  | ok => rfl

/-- A text whose tokens touch each other, a comment that is almost a long one, and an include line. -/
def crammed : String := "x=1..2--[=y\n#include  a.lua \n--[[z\n]]s=[==[a]]==]t'\\''"

/-- Where tokens touch each other, they tile the text as they do elsewhere. -/
theorem tokenize_tiles_crammed : ∃ ts, tokenize .identity crammed 0 = .ok ts ∧
    ts.map (·.text) = ["x", "=", "1.", ".2", "a.lua", "s", "=", "[==[a]]==]", "t", "'\\''", "<eof>"] ∧
    ts.Pairwise Token.Before ∧ SideBySide crammed.toList (Span.point {} :: ts.map (·.span)) ∧
    ∃ body eof, ts = body ++ [eof] ∧ ∀ t ∈ body, t.isEof = false ∧ t.IsWritten crammed.toList := by
  have htokens : tokenize .identity crammed 0 = .ok ((tokenize .identity crammed 0).toOption.getD []) :=
    eq_ok_of_isSome (by decide +kernel)
  have hcode : Cartridge.code crammed.toList 0 = { rest := crammed.toList, position := {} } := by
    rw [Cartridge.code, if_neg (by decide +kernel)]
  have htiles := tokenize_tiles .identity crammed 0 _ htokens
  simp only [hcode, Nat.zero_add, List.take_length] at htiles
  obtain ⟨-, hordered, hside, body, eof, hts, hbody, -⟩ := htiles
  exact ⟨_, htokens, by decide +kernel, hordered, hside, body, eof, hts, hbody⟩

end CartLua
