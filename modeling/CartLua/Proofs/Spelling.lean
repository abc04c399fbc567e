import CartLua.Proofs.Apart
/-!
# Spelled tokens

Texts that are one token each can be put side by side with single blanks between them, and scanning gives them back.
-/

namespace CartLua

open List Cursor

/-! ### Trivia -/

variable {c : Char} {rest : List Char}

namespace Trivia

theorem comment?_eq_none_iff {text : List Char} :
    comment? text = none ↔ ['-', '-'].isPrefixOf text = false ∧ ['/', '/'].isPrefixOf text = false := by
  unfold comment?
  split
  next rest => split <;> simp
  next rest => simp
  next hdashes hslashes =>
    simp only [true_iff]
    constructor <;> rw [Bool.eq_false_iff] <;> intro hmark <;>
      obtain ⟨rest, rfl⟩ := isPrefixOf_iff_prefix.mp hmark
    · exact hdashes rest rfl
    · exact hslashes rest rfl

theorem comment?_cut {n : Nat} {text cut : List Char} (h : IsCut n text cut) (hnone : comment? text = none) :
    comment? cut = none := by
  have hmark : ∀ mark : List Char, ' ' ∉ mark ∧ '\n' ∉ mark → mark.isPrefixOf text = false → mark.isPrefixOf cut = false :=
    fun mark hmark hfalse => Bool.eq_false_iff.mpr fun hcut => Bool.eq_false_iff.mp hfalse (h.prefix_of_cut hmark hcut).2
  rw [comment?_eq_none_iff] at hnone ⊢
  exact ⟨hmark _ (by decide) hnone.1, hmark _ (by decide) hnone.2⟩

theorem read_blanks {blanks : List Char} (hblanks : ∀ b ∈ blanks, isBlank b = true) (hc : isBlank c = false)
    (hcomment : comment? (c :: rest) = none) :
    read (blanks ++ c :: rest) = .clear blanks.length := by
  have htake : (blanks ++ c :: rest).takeWhile isBlank = blanks := by
    rw [takeWhile_append_of_pos hblanks, takeWhile_cons_of_neg (by simp [hc]), append_nil]
  rw [read]
  simp only [htake]
  split
  · rfl
  next d more hdrop =>
    rw [htake, drop_left] at hdrop
    obtain ⟨rfl, rfl⟩ := cons.inj hdrop
    rw [hcomment]

theorem of_read_zero (h : read (c :: rest) = .clear 0) :
    isBlank c = false ∧ comment? (c :: rest) = none := by
  have hblank : ((c :: rest).takeWhile isBlank).length = 0 → isBlank c = false := by
    intro hlength
    by_contra hc
    rw [takeWhile_cons_of_pos (by simpa using hc)] at hlength
    cases hlength
  rw [read] at h
  dsimp only at h
  split at h
  next hdrop =>
    rw [Trivia.clear.inj h] at hdrop
    cases hdrop
  next d more hdrop =>
    split at h
    next hcomment =>
      rw [Trivia.clear.inj h] at hdrop
      rw [drop_zero] at hdrop
      exact ⟨hblank (Trivia.clear.inj h), hdrop ▸ hcomment⟩
    · cases h
    next n hcomment =>
      cases hread : read (more.drop n) with
      | unclosed =>
        rw [hread] at h
        cases h
      | clear =>
        rw [hread, shift] at h
        have := Trivia.clear.inj h
        omega

end Trivia

/-! ### Spelled tokens -/

/-- Kind and text of a token, wherever it stands. -/
structure Spelling where
  kind : TokenKind
  text : String
deriving Inhabited, Repr

def Token.spelling (t : Token) : Spelling := ⟨t.kind, t.text⟩

namespace Spelling

variable {mode : Encoding} {w : Spelling} {ws : List Spelling}

def eof : Spelling := ⟨.eof, "<eof>"⟩

/-- Whether the text of `w` is one token, which is `w`. -/
def IsToken (mode : Encoding) (w : Spelling) : Prop :=
  ∃ t eof, tokenize mode w.text 0 = .ok [t, eof] ∧ t.spelling = w

/-- Whether the text of `w` is one lexeme without anything before it. -/
structure IsLexeme (mode : Encoding) (w : Spelling) : Prop where
  read : ∃ c rest, w.text.toList = c :: rest ∧ isBlank c = false ∧ Trivia.comment? (c :: rest) = none ∧
    Lexeme.read mode 1 true c rest = Lexeme.whole (c :: rest) w.kind
  kind : w.kind ≠ .directive

theorem IsLexeme.scan (h : w.IsLexeme mode) {c : Cursor} {blanks behind : List Char}
    (hblanks : ∀ b ∈ blanks, isBlank b = true) (hbehind : IsApart behind)
    (hrest : c.rest = blanks ++ w.text.toList ++ behind) :
    ∃ t next, c.scan mode = .token t next ∧ t.spelling = w ∧ next.rest = behind := by
  obtain ⟨ch, rest, htext, hch, hcomment, hread⟩ := h.read
  have hhead : c.rest = blanks ++ ch :: (rest ++ behind) := by simp [hrest, htext]
  have hlong : Trivia.comment? (ch :: (rest ++ behind)) = none :=
    Trivia.comment?_cut (.append hbehind (ch :: rest)) hcomment
  have hstart : (c.skip blanks.length).rest = ch :: (rest ++ behind) := by
    rw [Cursor.rest_skip, hhead, drop_left]
  have hlexeme := Lexeme.read_whole hread h.kind hbehind (c.skip blanks.length).position.line
    (c.skip blanks.length).fresh
  have hword : String.ofList (ch :: rest) = w.text := by rw [← htext, String.ofList_toList]
  refine ⟨⟨w.kind, String.ofList (ch :: rest), (c.skip blanks.length).spanTo
    ((c.skip blanks.length).skip (rest.length + 1))⟩, (c.skip blanks.length).skip (rest.length + 1), ?_, ?_, ?_⟩
  · rw [Cursor.scan, hhead, Trivia.read_blanks hblanks hch hlong]
    simp only [hstart]
    rw [hlexeme]
    rfl
  · rw [Token.spelling, hword]
  · rw [Cursor.rest_skip, hstart]
    show (ch :: rest ++ behind).drop (ch :: rest).length = behind
    exact drop_left

theorem read_header {line : Nat} {fresh : Bool} (h : Cartridge.header <+: c :: rest) :
    Lexeme.read mode line fresh c rest = Lexeme.token (c :: rest) 3 .identifier := by
  obtain ⟨more, hmore⟩ := h
  obtain ⟨rfl, rfl⟩ := cons.inj hmore
  rfl

theorem IsToken.isLexeme (h : w.IsToken mode) (hkind : w.kind ≠ .directive) : w.IsLexeme mode := by
  obtain ⟨t, eof, htokens, rfl⟩ := h
  rw [tokenize] at htokens
  -- The first step of scanning gives the token.
  obtain ⟨next, hscan⟩ : ∃ next, (Cartridge.code t.text.toList 0).scan mode = .token t next := by
    cases hscan : (Cartridge.code t.text.toList 0).scan mode with
    | done =>
      rw [Token.spelling, tokens_of_done hscan] at htokens
      cases htokens
    | fault =>
      rw [Token.spelling, tokens_of_fault hscan] at htokens
      cases htokens
    | token u next =>
      rw [Token.spelling, tokens_of_token hscan] at htokens
      cases hmore : next.tokens mode with
      | error =>
        rw [hmore] at htokens
        cases htokens
      | ok =>
        rw [hmore] at htokens
        cases htokens
        exact ⟨next, rfl⟩
  obtain ⟨n, c, rest, htrivia, hrest, lexeme, text, hread, houtcome, htext, -⟩ := scan_token hscan
  obtain ⟨more, hmore, htoken⟩ := Lexeme.isTaken_read hread houtcome hkind
  have hlist : t.text.toList = text := by rw [htext, String.toList_ofList]
  have htake : (c :: rest).take (more + 1) = text := by
    rw [htoken] at houtcome
    exact (Prod.mk.inj (Except.ok.inj houtcome)).2
  have hcode : Cartridge.code t.text.toList 0 = { rest := text, position := { file := 0 } } := by
    rw [hlist, Cartridge.code, if_neg]
    intro hheader
    have hlong := (List.isPrefixOf_iff_prefix.mp hheader).length_le
    have hprefix := (List.isPrefixOf_iff_prefix.mp hheader).trans (htake ▸ take_prefix (more + 1) (c :: rest))
    rw [htoken, read_header hprefix] at hread
    obtain rfl : more = 3 := congrArg Lexeme.more hread
    rw [← htake, length_take] at hlong
    exact absurd (hlong.trans (min_le_left ..)) (by decide)
  -- The token is all of the text, so that nothing stands before it.
  rw [hcode, rest_skip] at hrest
  have hlength := congrArg length hrest
  have hwhole := congrArg length htake
  rw [length_drop] at hlength
  rw [length_take] at hwhole
  obtain rfl : n = 0 := by
    dsimp only at hlength
    omega
  obtain rfl : text = c :: rest := hrest
  refine ⟨⟨c, rest, hlist, ?_⟩, hkind⟩
  rw [hcode] at htrivia hread
  obtain ⟨hblank, hcomment⟩ := Trivia.of_read_zero htrivia
  refine ⟨hblank, hcomment, hread.symm.trans (htoken.trans ?_)⟩
  rw [Lexeme.token, htake, Lexeme.whole]
  congr
  dsimp only at hlength
  omega

/-- The texts of some tokens, with blanks between them. -/
def joined (ws : List Spelling) : String := " ".intercalate (ws.map (·.text))

def behind (ws : List Spelling) : List Char := ws.flatMap fun w => ' ' :: w.text.toList

theorem isApart_behind (ws : List Spelling) : IsApart (behind ws) := by
  cases ws with
  | nil => exact isApart_nil
  | cons => exact isApart_blank _

theorem toList_joined (w : Spelling) (ws : List Spelling) : (joined (w :: ws)).toList = w.text.toList ++ behind ws := by
  rw [joined, String.toList_intercalate]
  induction ws generalizing w with
  | nil => simp [behind]
  | cons v ws ih =>
    simp only [map_cons, intercalate_cons_cons] at ih ⊢
    rw [ih v]
    simp [behind]

theorem blank_isBlank : ∀ b ∈ [' '], isBlank b = true := forall_mem_singleton.mpr rfl

theorem tokens_behind (ws : List Spelling) (h : ∀ w ∈ ws, w.IsLexeme mode) {c : Cursor} (hrest : c.rest = behind ws) :
    ∃ ts, c.tokens mode = .ok ts ∧ ts.map Token.spelling = ws ++ [eof] := by
  induction ws generalizing c with
  | nil =>
    exact ⟨_, tokens_of_done (scan_nil hrest), rfl⟩
  | cons w ws ih =>
    obtain ⟨t, next, hscan, rfl, hnext⟩ := (h w (mem_cons_self ..)).scan blank_isBlank (isApart_behind ws)
      (by simpa [behind] using hrest)
    obtain ⟨ts, hts, hspelling⟩ := ih (fun v hv => h v (mem_cons_of_mem _ hv)) hnext
    refine ⟨t :: ts, ?_, ?_⟩
    · rw [tokens_of_token hscan, hts]
      rfl
    · rw [map_cons, hspelling, cons_append]

theorem IsLexeme.code (h : w.IsLexeme mode) {behind : List Char} (hbehind : IsApart behind) (file : FileId) :
    Cartridge.code (w.text.toList ++ behind) file = { rest := w.text.toList ++ behind, position := { file } } := by
  obtain ⟨c, rest, htext, -, -, hread⟩ := h.read
  rw [Cartridge.code, if_neg]
  intro hheader
  rw [htext, cons_append] at hheader
  have hprefix := isPrefixOf_iff_prefix.mp hheader
  -- Its first token would be four characters long, and a dash would follow it.
  have hlong := Lexeme.read_whole hread h.kind hbehind 1 true
  rw [read_header hprefix] at hlong
  have hlength : 3 = rest.length := congrArg Lexeme.more hlong
  obtain ⟨more, hmore⟩ := hprefix
  have hdash := congrArg (drop 4) hmore
  rw [drop_succ_cons, hlength, drop_left] at hdash
  have hblank := hbehind '-' (by rw [← hdash]; rfl)
  exact absurd hblank (by decide)

theorem code_joined {w : Spelling} (h : w.IsLexeme mode) (file : FileId) :
    (Cartridge.code (joined (w :: ws)).toList file).rest = [] ++ w.text.toList ++ behind ws := by
  rw [toList_joined, h.code (isApart_behind ws), nil_append]

theorem tokens_joined (h : ∀ w ∈ ws, w.IsLexeme mode) (file : FileId) :
    ∃ ts, tokenize mode (joined ws) file = .ok ts ∧ ts.map Token.spelling = ws ++ [eof] := by
  cases ws with
  | nil => exact ⟨_, tokens_of_done (scan_nil rfl), rfl⟩
  | cons w ws =>
    have hw := h w mem_cons_self
    obtain ⟨t, next, hscan, rfl, hnext⟩ :=
      hw.scan (fun _ hb => absurd hb not_mem_nil) (isApart_behind ws) (code_joined hw file)
    obtain ⟨ts, hts, hspelling⟩ := tokens_behind ws (fun v hv => h v (mem_cons_of_mem _ hv)) hnext
    refine ⟨t :: ts, ?_, ?_⟩
    · rw [tokenize, tokens_of_token hscan, hts]
      rfl
    · rw [map_cons, hspelling, cons_append]

theorem IsLexeme.isToken (h : w.IsLexeme mode) : w.IsToken mode := by
  obtain ⟨ts, hts, hspelling⟩ := tokens_joined (forall_mem_singleton.mpr h) 0
  have hjoined : joined [w] = w.text := by
    rw [← String.toList_inj, toList_joined, behind, flatMap_nil, append_nil]
  rw [hjoined] at hts
  obtain ⟨t, ts, rfl, ht, hrest⟩ := map_eq_cons_iff.mp hspelling
  obtain ⟨eof, ts, rfl, -, hnil⟩ := map_eq_cons_iff.mp hrest
  obtain rfl := map_eq_nil_iff.mp hnil
  exact ⟨t, eof, hts, ht⟩

end Spelling

end CartLua
