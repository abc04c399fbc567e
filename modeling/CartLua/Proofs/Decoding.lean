import CartLua.Proofs.CodePoints
import CartLua.Proofs.Freshness
import CartLua.Proofs.ProgramReading
import CartLua.Proofs.Sliding
/-!
# Decoded strings

A string token has a value exactly if the encoding decodes strings, and all characters of the value are admitted by the
encoding, whether they were written as they are or as escapes. Every string of a tree was a token. So it is with all
strings of a program, also where it is wrong and in the documents it includes.
-/

namespace CartLua

open List

variable {text : List Char} {mode : Encoding}

/-! ### Alphabets -/

namespace Encoding

variable {mode : Encoding} {content more : List Char} {c : Char}

/-- What a string token may carry: nothing where strings are discarded, and else a text that the encoding admits. -/
def Decodes (mode : Encoding) (value : Option String) : Prop :=
  if mode.discards then value = none else ∃ v, value = some v ∧ mode.offending? v.toList = none

theorem Decodes.isSome {value : Option String} (h : mode.Decodes value) : value.isSome = !mode.discards := by
  unfold Decodes at h
  split at h
  next hmode => rw [h, hmode]; rfl
  next hmode =>
    obtain ⟨v, rfl, -⟩ := h
    simp [hmode]

theorem offending_append (h : mode.offending? content = none) (hmore : mode.offending? more = none) :
    mode.offending? (content ++ more) = none := by
  rw [offending?, find?_append, ← offending?, ← offending?, h, hmore]
  rfl

theorem admits_of_byte {b : UInt8} (h : mode.byte? b = some c) : mode.admits c = true := by
  have hb := b.toNat_lt
  cases mode with
  | identity =>
    cases h
    rw [admits, toNat_ofNat (.inl (by omega))]
    exact decide_eq_true (by omega)
  | privateUse =>
    cases h
    rw [admits]
    split
    · rw [toNat_ofNat (.inl (by omega))]
      grind
    · rw [toNat_ofNat (.inr (by omega))]
      grind
  | discard => cases h

theorem admits_ascii (h : c.toNat < 0x80) : mode.admits c = true := by
  cases mode <;> grind [admits]

end Encoding

theorem Escape.isControl_of_read {c : Char} {n : Nat} (h : read text = (.control c, n)) : isControl c = true := by
  unfold read hexByte decimalByte codePoint at h
  grind

theorem Escape.offending_meaning : mode.offending? ((read text).1.meaning mode) = none := by
  rw [Encoding.offending?, find?_eq_none]
  intro c hc
  cases hread : (read text).1 with
  | bytes =>
    rw [hread, meaning, Encoding.bytes] at hc
    obtain ⟨b, -, hbyte⟩ := mem_filterMap.mp hc
    simp [Encoding.admits_of_byte hbyte]
  | control =>
    rw [hread, meaning] at hc
    have hsign := isControl_of_read (Prod.ext hread rfl)
    have hascii : c.toNat < 0x80 := by
      simp only [isControl, Bool.or_eq_true, beq_iff_eq, mem_cons, not_mem_nil, or_false] at hsign hc
      obtain rfl | rfl := hc
      · decide
      · obtain ((((rfl | rfl) | rfl) | rfl) | rfl) | rfl := hsign <;> decide
    simp [Encoding.admits_ascii hascii]
  | wrong =>
    rw [hread] at hc
    cases hc

theorem Quoted.cons_eq_flawless {part value : List Char} {first : Option Flaw} {later : Quoted} {stop : Nat}
    (h : cons part first later = .closed stop value none) :
    first = none ∧ ∃ rest, later = .closed stop rest none ∧ value = part ++ rest := by
  cases later with
  | unfinished => cases h
  | closed offset rest =>
    injection h with hstop hvalue hflaw
    obtain ⟨hfirst, hlater⟩ := Option.or_eq_none_iff.mp (Option.orElse_eq_or.symm.trans hflaw)
    exact ⟨hfirst, rest, by rw [hstop, hlater], hvalue.symm⟩

theorem Quoted.offending_of_read {quote : Char} {offset stop : Nat} {text value : List Char}
    (h : read mode quote offset text = .closed stop value none) : mode.offending? value = none := by
  fun_induction read mode quote offset text generalizing stop value with
  | case1 => cases h
  | case2 offset text run reached rest escape length hescape near =>
    rename_i ih
    obtain ⟨hrun, behind, hbehind, rfl⟩ := cons_eq_flawless h
    obtain ⟨-, later, hlater, rfl⟩ := cons_eq_flawless hbehind
    have hmeaning : mode.offending? ((Escape.read rest).1.meaning mode) = none := Escape.offending_meaning
    rw [hescape] at hmeaning
    exact Encoding.offending_append (Option.map_eq_none_iff.mp hrun) (Encoding.offending_append hmeaning (ih hlater))
  | case3 =>
    injection h with _ hvalue hflaw
    exact hvalue ▸ Option.map_eq_none_iff.mp hflaw
  | case4 => cases h

/-- The word is no string, or one that has a value exactly if the encoding decodes strings. -/
def Word.Decoded (mode : Encoding) : Word → Prop
  | .string value _ => value.isSome = !mode.discards
  | _ => True

/-! ### Tokens -/

/-- The token is no string, or one with a value as the encoding says. -/
def Token.Decoded (mode : Encoding) (t : Token) : Prop := ∀ value, t.kind = .string value → mode.Decodes value

namespace Lexeme

variable {mode : Encoding} {line : Nat} {fresh : Bool} {c : Char} {rest text : List Char} {value : Option String}

theorem decodes_decoded {content : List Char} (h : mode.offending? content = none) : mode.Decodes (decoded mode content) := by
  unfold Encoding.Decodes decoded
  split
  · rfl
  · exact ⟨_, rfl, by rwa [String.toList_ofList]⟩

theorem decoded_of_quoted (h : (quoted mode c rest).outcome = .ok (.string value, text)) :
    mode.Decodes value := by
  unfold quoted at h
  split at h
  · cases h
  · cases h
  next hread =>
    cases h
    exact decodes_decoded (Quoted.offending_of_read hread)

theorem decoded_of_longString {level : Nat} (h : (longString mode line level rest).outcome = .ok (.string value, text)) :
    mode.Decodes value := by
  unfold longString at h
  split at h
  · cases h
  · split at h
    · cases h
    next hcontents =>
      cases h
      exact decodes_decoded hcontents

theorem decoded_of_read (h : (read mode line fresh c rest).outcome = .ok (.string value, text)) :
    mode.Decodes value := by
  unfold read at h
  split at h
  · exact decoded_of_quoted h
  split at h
  · obtain ⟨number, hkind⟩ := reading_numeral h
    cases hkind
  split at h
  · exact decoded_of_longString h
  split at h
  · cases h
  split at h
  · have hkind := (Prod.mk.inj (Except.ok.inj h)).1
    obtain ⟨_, hword⟩ | hword | ⟨_, hword⟩ | hword := wordKind_cases ((c :: rest).take ((rest.takeWhile continuesName).length + 1))
      <;> rw [hword] at hkind <;> cases hkind
  · unfold sign at h
    split at h
    · cases h
    · split at h <;> cases h

end Lexeme

theorem Cursor.decoded_nextToken (mode : Encoding) (c : Cursor) : (c.nextToken mode).1.Decoded mode := by
  induction c using Cursor.scan_induction mode with
  | done c eof next hscan =>
    obtain ⟨-, rfl, -⟩ := scan_done hscan
    rw [nextToken_of_done hscan]
    exact nofun
  | token c t next hscan =>
    obtain ⟨n, ch, rest, -, -, lexeme, text, rfl, houtcome, -⟩ := scan_token hscan
    rw [nextToken_of_token hscan]
    intro value hkind
    exact Lexeme.decoded_of_read (hkind ▸ houtcome)
  | fault c d next hscan ih =>
    rw [nextToken_of_fault hscan]
    exact ih

theorem Cursor.decoded_returned (mode : Encoding) (c : Cursor) (n : Nat) : (c.returned mode n).Decoded mode := by
  induction n generalizing c with
  | zero =>
    rw [← nextToken_eq_returned]
    exact decoded_nextToken mode c
  | succ n ih =>
    rw [← returned_nextToken]
    exact ih _

/-! ### Windows and sessions -/

namespace Window

/-- The tokens ahead are decoded as the encoding says. -/
structure Decoded (mode : Encoding) (w : Window) : Prop where
  encoding : w.encoding = mode
  token : w.token.Decoded mode
  lookahead : w.lookahead.Decoded mode

variable {mode : Encoding} {w : Window}

theorem Decoded.fetch (hencoding : w.encoding = mode) (htoken : w.token.Decoded mode) : w.fetch.2.Decoded mode := by
  rw [fetch_eq]
  exact ⟨hencoding, htoken, hencoding ▸ w.cursor.decoded_nextToken w.encoding⟩

theorem Decoded.next (h : w.Decoded mode) : w.next.2.Decoded mode := by
  unfold Window.next
  split
  · exact { h with token := nofun }
  · exact .fetch h.encoding h.lookahead

theorem Decoded.setNewlines (h : w.Decoded mode) (shown : Bool) : (w.setNewlines shown).2.Decoded mode := by
  obtain hset | ⟨-, -, hset⟩ := w.setNewlines_cases shown <;> rw [hset]
  · exact { h with }
  · exact .fetch h.encoding h.lookahead

theorem decoded_start (mode : Encoding) (text : String) (file : FileId) : (ofText mode text file).start.2.Decoded mode := by
  have horigin : (ofText mode text file).token.Decoded mode := by
    intro value hkind
    cases hkind
  exact (Decoded.fetch rfl horigin).next

theorem Decoded.afterAll (h : w.Decoded mode) (calls : List Call) : (w.afterAll calls).Decoded mode := by
  induction calls generalizing w with
  | nil => exact h
  | cons call calls ih =>
    cases call with
    | next => exact ih h.next
    | setNewlines shown => exact ih (h.setNewlines shown)

/-- **Strings stay in their alphabet.** Whatever is asked of a window, also behind faults, the string tokens it shows
carry a text that the encoding admits, and none where strings are discarded. So it is with the tokens of a text without
faults. -/
theorem decodes_of_token (mode : Encoding) (text : String) (file : FileId) (calls : List Call) (t : Token)
    (value : Option String) (hkind : t.kind = .string value)
    (ht : t ∈ [((ofText mode text file).start.2.afterAll calls).token,
        ((ofText mode text file).start.2.afterAll calls).lookahead] ∨ ∃ ts, tokenize mode text file = .ok ts ∧ t ∈ ts) :
    mode.Decodes value := by
  obtain ht | ⟨ts, hts, ht⟩ := ht
  · have hdecoded := (decoded_start mode text file).afterAll calls
    obtain rfl | ht := List.mem_cons.mp ht
    · exact hdecoded.token value hkind
    · cases List.mem_singleton.mp ht
      exact hdecoded.lookahead value hkind
  · rw [Cursor.tokens_eq_returned hts] at ht
    obtain ⟨n, -, rfl⟩ := List.mem_map.mp ht
    exact Cursor.decoded_returned mode _ n value hkind

/-- A string behind a wrong one, with an escaped byte that is no ASCII character. -/
theorem decodes_of_token_escaped : ∃ t value, t.kind = .string value ∧
    t ∈ [((ofText .privateUse "'\\q' '\\xff' x" 0).start.2.afterAll []).token] ∧ Encoding.privateUse.Decodes value := by
  refine ⟨_, some (String.ofList [Char.ofNat 0xF7FF]), ?_, List.mem_singleton_self _, ?_⟩
  · decide +kernel
  · exact decodes_of_token .privateUse "'\\q' '\\xff' x" 0 [] _ _ (by decide +kernel) (.inl List.mem_cons_self)

end Window

namespace Session

variable {c : Settings} {s t : Session} {mode : Encoding}

/-- The tokens ahead in all open documents are decoded as the encoding says. -/
def Decoded (mode : Encoding) (s : Session) : Prop := ∀ w ∈ s.windows, w.Decoded mode

theorem Act.decoded (h : Act c s t) (hs : s.Decoded c.encoding) : t.Decoded c.encoding := by
  intro v hv
  obtain ⟨w, hw, previous, rfl | rfl | ⟨shown, rfl⟩⟩ | ⟨contents, previous, rfl⟩ := h.mem_windows hv
  · exact { hs w hw with }
  · exact { (hs w hw).next with }
  · exact { (hs w hw).setNewlines shown with }
  · exact { Window.decoded_start c.encoding contents s.files.size with }

theorem Reaches.decoded (h : Reaches c s t) (hs : s.Decoded c.encoding) : t.Decoded c.encoding :=
  h.keeps Act.decoded hs

theorem Decoded.token (h : s.Decoded mode) : s.window.token.Decoded mode := (h s.window mem_cons_self).token

end Session

/-- All strings among words are decoded as the encoding says. -/
def Words.Decoded (mode : Encoding) (ws : List Word) : Prop := ∀ w ∈ ws, w.Decoded mode

namespace Program

theorem decoded_start (options : Options) (source name : String) :
    (start options source name).Decoded options.encoding := by
  intro w hw
  obtain rfl : w = (Window.ofText options.encoding source 0).start.2 := mem_singleton.mp hw
  exact Window.decoded_start ..

theorem decoded_parse (options : Options) (source name : String) :
    Words.Decoded options.encoding (Words.statements (parse options source name).body) := by
  have hstart := decoded_start options source name
  obtain ⟨body, last, hrun⟩ := exists_run_eq_ok options source name
  rw [parse, hrun]
  obtain ⟨hread, -⟩ := reads_wholeText false hrun
  intro w hw
  cases w with
  | string value text =>
    obtain ⟨u, hu, hkind⟩ := hread.strings value text hw
    exact ((hu.decoded hstart).token value hkind).isSome
  | _ => trivial

end Program

end CartLua
