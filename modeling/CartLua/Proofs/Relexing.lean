import CartLua.Proofs.Tiling
import Mathlib.Data.List.DropRight
/-!
# Reading tokens again

The tokens of a text can be written down one after the other, with single blanks between them and every include line on a
line of its own, and reading what is written gives the same tokens.
-/

namespace CartLua

open List

/-! ### Include lines -/

theorem trimBlanks_eq (text : List Char) : trimBlanks text = (text.dropWhile isBlank).rdropWhile isBlank := rfl

theorem trimBlanks_sublist (text : List Char) : (trimBlanks text).Sublist text :=
  (List.rdropWhile_prefix isBlank _).sublist.trans (dropWhile_suffix isBlank).sublist

theorem trimBlanks_trimBlanks (text : List Char) : trimBlanks (trimBlanks text) = trimBlanks text := by
  have hfront : (trimBlanks text).dropWhile isBlank = trimBlanks text := by
    have hprefix : trimBlanks text <+: text.dropWhile isBlank := rdropWhile_prefix isBlank _
    have hhead := head?_dropWhile_not isBlank text
    cases htrim : trimBlanks text with
    | nil => rfl
    | cons =>
      obtain ⟨more, hmore⟩ := hprefix
      rw [← hmore, htrim] at hhead
      exact dropWhile_cons_of_neg (by simpa using hhead)
  rw [trimBlanks_eq (trimBlanks text), hfront, trimBlanks_eq, rdropWhile_idempotent]

theorem trimBlanks_cons {c : Char} (h : isBlank c = true) (text : List Char) : trimBlanks (c :: text) = trimBlanks text := by
  rw [trimBlanks, dropWhile_cons_of_pos h, trimBlanks]

namespace Trivia

variable {text line behind : List Char} {n : Nat}

theorem lineLength_line (hline : '\n' ∉ line) (hbehind : ∀ c ∈ behind.head?, c = '\n') :
    lineLength (line ++ behind) = line.length := by
  have hall : ∀ c ∈ line, (c != '\n') = true := by
    intro c hc
    simpa using fun heq : c = '\n' => hline (heq ▸ hc)
  unfold lineLength
  rw [takeWhile_append_of_pos hall]
  cases behind with
  | nil => simp
  | cons c =>
    obtain rfl := hbehind c rfl
    simp

theorem read_drop (h : read text = .clear n) : read (text.drop n) = .clear 0 := by
  refine clear_induction ?nil ?token ?comment h
  case nil =>
    intro text hrest
    rw [hrest, read_nil]
  case token =>
    intro text c rest hrest hcomment
    have hdrop : text.dropWhile isBlank = c :: rest := by
      rw [← hrest]
      calc text.dropWhile isBlank
          = (text.takeWhile isBlank ++ text.dropWhile isBlank).drop (text.takeWhile isBlank).length :=
            drop_left.symm
        _ = text.drop (text.takeWhile isBlank).length := by rw [takeWhile_append_dropWhile]
    have hblank := head?_dropWhile_not isBlank text
    rw [hdrop] at hblank
    rw [hrest]
    exact read_blanks (forall_mem_nil _) hblank hcomment
  case comment =>
    intro text c rest skipped m hrest _ ih
    rw [Nat.add_assoc, Nat.add_assoc, ← drop_drop, hrest, Nat.add_comm 1, drop_succ_cons, ← drop_drop]
    exact ih

end Trivia

variable {c : Cursor}

namespace Spelling

variable {mode : Encoding} {v w : Spelling} {ws : List Spelling}

def isDirective (w : Spelling) : Bool :=
  match w.kind with
  | .directive => true
  | _ => false

/-- How a token is written. An include line has its mark before the target. -/
def written (w : Spelling) : List Char :=
  if w.isDirective then "#include ".toList ++ w.text.toList else w.text.toList

/-- What is written between two tokens: an include line stands alone on its line. -/
def gap (v w : Spelling) : Char := if v.isDirective || w.isDirective then '\n' else ' '

def writtenBehind (v : Spelling) : List Spelling → List Char
  | [] => []
  | w :: ws => v.gap w :: (w.written ++ writtenBehind w ws)

def writeAll : List Spelling → String
  | [] => ""
  | w :: ws => String.ofList (w.written ++ writtenBehind w ws)

/-- The token is an include line whose target has no blanks at its ends. -/
structure IsInclude (w : Spelling) : Prop where
  kind : w.kind = .directive
  trimmed : trimBlanks w.text.toList = w.text.toList
  line : '\n' ∉ w.text.toList

theorem IsInclude.isDirective (h : w.IsInclude) : w.isDirective = true := by rw [Spelling.isDirective, h.kind]

theorem IsLexeme.isDirective (h : w.IsLexeme mode) : w.isDirective = false := by
  unfold Spelling.isDirective
  split
  next hkind => exact absurd hkind h.kind
  · rfl

theorem gap_eq (v w : Spelling) : v.gap w = ' ' ∨ v.gap w = '\n' := by
  unfold gap
  split
  · exact .inr rfl
  · exact .inl rfl

theorem isBlank_gap (v w : Spelling) : ∀ b ∈ [v.gap w], isBlank b = true := by
  obtain h | h := gap_eq v w <;> rw [h] <;> exact forall_mem_singleton.mpr rfl

theorem isApart_writtenBehind (v : Spelling) (ws : List Spelling) : IsApart (writtenBehind v ws) := by
  cases ws with
  | nil => exact isApart_nil
  | cons w =>
    intro c hc
    cases hc
    exact gap_eq v w

theorem head_writtenBehind (h : v.IsInclude) (ws : List Spelling) : ∀ c ∈ (writtenBehind v ws).head?, c = '\n' := by
  intro c hc
  cases ws with
  | nil => cases hc
  | cons =>
    cases hc
    rw [gap, h.isDirective, Bool.true_or, if_pos rfl]

theorem IsInclude.scan (h : w.IsInclude) {c : Cursor} {blanks behind : List Char}
    (hblanks : ∀ b ∈ blanks, isBlank b = true) (hfresh : (c.skip blanks.length).fresh = true)
    (hbehind : ∀ d ∈ behind.head?, d = '\n') (hrest : c.rest = blanks ++ w.written ++ behind) :
    ∃ t next, c.scan mode = .token t next ∧ t.spelling = w ∧ next.rest = behind := by
  rw [written, if_pos h.isDirective] at hrest
  generalize htarget : w.text.toList = target at hrest
  have hline : '\n' ∉ ' ' :: target := not_mem_cons_of_ne_of_not_mem (by decide) (htarget ▸ h.line)
  have hhead : c.rest = blanks ++ '#' :: ("include".toList ++ (' ' :: target ++ behind)) := by simp [hrest]
  have hstart : (c.skip blanks.length).rest = '#' :: ("include".toList ++ (' ' :: target ++ behind)) := by
    rw [Cursor.rest_skip, hhead, drop_left]
  have hlexeme : Lexeme.read mode (c.skip blanks.length).position.line (c.skip blanks.length).fresh '#'
      ("include".toList ++ (' ' :: target ++ behind)) = ⟨target.length + 8, .ok (.directive, target)⟩ := by
    rw [Lexeme.read, if_neg (by decide), if_neg (by simp), hfresh]
    show (if _ then Lexeme.directive _ else _) = _
    rw [if_pos (by simp), Lexeme.directive_include, Trivia.lineLength_line hline hbehind, take_left,
      trimBlanks_cons (by decide), ← htarget, h.trimmed]
    rfl
  have hread : Trivia.read (blanks ++ '#' :: ("include".toList ++ (' ' :: target ++ behind))) = .clear blanks.length :=
    Trivia.read_blanks hblanks rfl rfl
  refine ⟨⟨.directive, String.ofList target, (c.skip blanks.length).spanTo ((c.skip blanks.length).skip (target.length + 9))⟩,
    (c.skip blanks.length).skip (target.length + 9), ?_, ?_, ?_⟩
  · rw [Cursor.scan, hhead, hread]
    simp only [hstart]
    rw [hlexeme]
    rfl
  · rw [Token.spelling, ← htarget, String.ofList_toList, ← h.kind]
  · rw [Cursor.rest_skip, hstart, ← append_assoc, ← cons_append]
    exact drop_left' (by simp)

theorem tokens_writtenBehind (h : ∀ w ∈ ws, w.IsLexeme mode ∨ w.IsInclude) (hrest : c.rest = writtenBehind v ws) :
    ∃ ts, c.tokens mode = .ok ts ∧ ts.map Token.spelling = ws ++ [eof] := by
  induction ws generalizing v c with
  | nil => exact ⟨_, Cursor.tokens_of_done (Cursor.scan_nil hrest), rfl⟩
  | cons w ws ih =>
    have hrest' : c.rest = [v.gap w] ++ w.written ++ writtenBehind w ws := hrest
    obtain ⟨t, next, hscan, rfl, hnext⟩ :
        ∃ t next, c.scan mode = .token t next ∧ t.spelling = w ∧ next.rest = writtenBehind w ws := by
      obtain hw | hw := h w mem_cons_self
      · rw [written, if_neg (by simp [hw.isDirective])] at hrest'
        exact hw.scan (isBlank_gap v w) (isApart_writtenBehind w ws) hrest'
      · have hgap : v.gap w = '\n' := by rw [gap, hw.isDirective, Bool.or_true, if_pos rfl]
        refine hw.scan (isBlank_gap v w) ?_ ?_ hrest'
        · rw [hgap] at hrest'
          rw [length_singleton, Cursor.skip_cons hrest']
          rfl
        · exact head_writtenBehind hw ws
    obtain ⟨ts, hts, hspelling⟩ := ih (fun u hu => h u (mem_cons_of_mem _ hu)) hnext
    refine ⟨t :: ts, ?_, ?_⟩
    · rw [Cursor.tokens_of_token hscan, hts]
      rfl
    · rw [map_cons, hspelling, cons_append]

theorem tokens_writeAll (h : ∀ w ∈ ws, w.IsLexeme mode ∨ w.IsInclude) (file : FileId) :
    ∃ ts, tokenize mode (writeAll ws) file = .ok ts ∧ ts.map Token.spelling = ws ++ [eof] := by
  cases ws with
  | nil => exact ⟨_, Cursor.tokens_of_done (Cursor.scan_nil rfl), rfl⟩
  | cons w ws =>
    have hbehind := isApart_writtenBehind w ws
    obtain ⟨t, next, hscan, rfl, hnext⟩ : ∃ t next,
        (Cartridge.code (writeAll (w :: ws)).toList file).scan mode = .token t next ∧ t.spelling = w ∧
          next.rest = writtenBehind w ws := by
      rw [writeAll, String.toList_ofList]
      obtain hw | hw := h w mem_cons_self
      · rw [written, if_neg (by simp [hw.isDirective]), hw.code hbehind]
        exact hw.scan (fun _ hb => absurd hb not_mem_nil) hbehind rfl
      · have hcode : Cartridge.code (w.written ++ writtenBehind w ws) file =
            { rest := w.written ++ writtenBehind w ws, position := { file } } := by
          rw [Cartridge.code, if_neg]
          rw [written, if_pos hw.isDirective]
          exact Bool.false_ne_true
        rw [hcode]
        exact hw.scan (fun _ hb => absurd hb not_mem_nil) rfl (head_writtenBehind hw ws) rfl
    obtain ⟨ts, hts, hspelling⟩ := tokens_writtenBehind (fun u hu => h u (mem_cons_of_mem _ hu)) hnext
    refine ⟨t :: ts, ?_, ?_⟩
    · rw [tokenize, Cursor.tokens_of_token hscan, hts]
      rfl
    · rw [map_cons, hspelling, cons_append]

theorem isLexeme_or_isInclude {next : Cursor} {t : Token} (h : c.scan mode = .token t next) :
    t.spelling.IsLexeme mode ∨ t.spelling.IsInclude := by
  obtain ⟨n, ch, rest, htrivia, hrest, lexeme, text, rfl, houtcome, htext, -⟩ := Cursor.scan_token h
  have hlist : t.spelling.text.toList = text := (congrArg String.toList htext).trans (String.toList_ofList ..)
  by_cases hkind : t.kind = .directive
  · rw [hkind] at houtcome
    obtain ⟨rfl, ⟨line, rfl⟩, hread⟩ := Lexeme.directive_of_read houtcome
    rw [hread, Lexeme.directive_include] at houtcome
    obtain rfl := (Prod.mk.inj (Except.ok.inj houtcome)).2
    refine .inr ⟨hkind, ?_, ?_⟩
    · rw [hlist, trimBlanks_trimBlanks]
    · rw [hlist]
      exact fun hmem => (Trivia.take_lineLength line).1 ((trimBlanks_sublist _).subset hmem)
  · refine .inl ⟨?_, hkind⟩
    obtain ⟨hblank, hcomment⟩ := Trivia.of_read_zero (hrest ▸ Cursor.rest_skip c n ▸ Trivia.read_drop htrivia)
    have hcut := IsCut.take (Nat.le_of_lt_succ (Lexeme.fits_read mode (c.skip n).position.line (c.skip n).fresh ch rest).1)
    have halone : Lexeme.read mode 1 true ch (rest.take _) = _ :=
      Lexeme.read_cut houtcome hcut le_rfl (absurd · hkind) (fun _ => .inr rfl) 1
    obtain ⟨more, hmore, htaken⟩ := Lexeme.isTaken_read rfl houtcome hkind
    rw [htaken] at hcut halone houtcome
    obtain rfl : ch :: rest.take more = text := (Prod.mk.inj (Except.ok.inj houtcome)).2
    refine ⟨ch, rest.take more, hlist, hblank, Trivia.comment?_cut (hcut.cons ch) hcomment, halone.trans ?_⟩
    · have hlength : (rest.take more).length = more := by
        rw [length_take, Nat.min_eq_left (Nat.le_of_lt_succ hmore)]
      rw [Lexeme.whole, length_cons, hlength]
      rfl

end Spelling

theorem Cursor.exists_scan_of_tokens {mode : Encoding} {ts : List Token} (h : c.tokens mode = .ok ts) :
    ∃ body p, ts = body ++ [Token.eof p] ∧ ∀ t ∈ body, ∃ d next : Cursor, d.scan mode = .token t next := by
  induction c, ts, h using Cursor.tokens_induction with
  | done c eof next hscan =>
    obtain ⟨-, rfl, -⟩ := scan_done hscan
    exact ⟨[], _, rfl, nofun⟩
  | token c t next others hscan _ ih =>
    obtain ⟨body, p, rfl, hbody⟩ := ih
    exact ⟨t :: body, p, rfl, forall_mem_cons.mpr ⟨⟨c, next, hscan⟩, hbody⟩⟩

/-- Reading is stable: the tokens of a text, written down one after the other, are read again as they are. -/
theorem tokenize_writeAll (mode : Encoding) (text : String) (file : FileId) (ts : List Token)
    (h : tokenize mode text file = .ok ts) (file' : FileId) :
    ∃ ts', tokenize mode (Spelling.writeAll ((ts.filter (!·.isEof)).map Token.spelling)) file' = .ok ts' ∧
      ts'.map Token.spelling = ts.map Token.spelling := by
  obtain ⟨body, p, rfl, hbody⟩ := Cursor.exists_scan_of_tokens h
  have hsolid : (body ++ [Token.eof p]).filter (!·.isEof) = body := by
    rw [List.filter_append, List.filter_eq_self.mpr, List.filter_cons_of_neg (by simp [Token.eof, Token.isEof]),
      List.filter_nil, List.append_nil]
    intro t ht
    obtain ⟨d, next, hscan⟩ := hbody t ht
    rw [Cursor.isEof_of_scan hscan]
    rfl
  have hwritten : ∀ w ∈ body.map Token.spelling, w.IsLexeme mode ∨ w.IsInclude := by
    intro w hw
    obtain ⟨t, ht, rfl⟩ := List.mem_map.mp hw
    obtain ⟨d, next, hscan⟩ := hbody t ht
    exact Spelling.isLexeme_or_isInclude hscan
  rw [hsolid]
  obtain ⟨ts', hts', hspelling⟩ := Spelling.tokens_writeAll hwritten file'
  refine ⟨ts', hts', ?_⟩
  rw [hspelling, List.map_append]
  rfl

/-- The tokens of a crammed text, written down and read again. -/
theorem tokenize_writeAll_crammed : ∃ ts ts', tokenize .identity crammed 0 = .ok ts ∧
    Spelling.writeAll ((ts.filter (!·.isEof)).map Token.spelling) =
      "x = 1. .2\n#include a.lua\ns = [==[a]]==] t '\\''" ∧
    tokenize .identity "x = 1. .2\n#include a.lua\ns = [==[a]]==] t '\\''" 3 = .ok ts' ∧
    ts'.map Token.spelling = ts.map Token.spelling := by
  have htokens : tokenize .identity crammed 0 = .ok ((tokenize .identity crammed 0).toOption.getD []) :=
    eq_ok_of_isSome (by decide +kernel)
  have hwritten : Spelling.writeAll ((((tokenize .identity crammed 0).toOption.getD []).filter (!·.isEof)).map Token.spelling) =
      "x = 1. .2\n#include a.lua\ns = [==[a]]==] t '\\''" := by decide +kernel
  obtain ⟨ts', hts', hspelling⟩ := tokenize_writeAll .identity crammed 0 _ htokens 3
  rw [hwritten] at hts'
  exact ⟨_, ts', htokens, hwritten, hts', hspelling⟩

end CartLua
