import CartLua.Proofs.ProgramReading
import CartLua.Proofs.StatementRoundTrip
/-!
# Reading a rendered program

The text of a block is read as the block again, if there are enough levels for it. Twice as many levels as tokens are
always enough.
-/

namespace CartLua

open Parse Session

/-! ### The tokens of a text -/

variable {ts : List Token}

theorem Cursor.readable_of_tokens {mode : Encoding} {c : Cursor} (h : c.tokens mode = .ok ts) :
    ∃ eof, ts = c.readable mode ++ [eof] := by
  induction c, ts, h using Cursor.tokens_induction with
  | done c eof next hscan => exact ⟨eof, by rw [readable_of_done hscan, List.nil_append]⟩
  | token c t next others hscan _ ih =>
    obtain ⟨eof, rfl⟩ := ih
    exact ⟨eof, by rw [readable_of_token hscan, List.cons_append]⟩

theorem Window.start_shows {mode : Encoding} {text : String} {file : FileId} (h : tokenize mode text file = .ok ts)
    (hplain : (Cartridge.code text.toList file).Plain mode) :
    (ofText mode text file).start.1 = none ∧ (ofText mode text file).start.2.Shows (ts.map Token.spelling) := by
  have hfirst : (ofText mode text file).fetch.1 = none := fetch_none_of_tokens h
  have hsecond : (ofText mode text file).atFirst.fetch.1 = none :=
    fetch_none (fetch_ended _ hfirst) ((fetch_ahead hfirst).trans h)
  have hnone : (ofText mode text file).start.1 = none := by
    rw [start_eq, hfirst, hsecond]
    rfl
  refine ⟨hnone, start_plain hplain, ?_, ?_, ?_, ⟨ts, (start_stream hnone).trans h, rfl⟩⟩
  · rw [start_eq, fetch_newlines, atFirst]
    exact fetch_newlines _
  · rw [start_eq, fetch_token, atFirst, fetch_eq]
    exact (Cursor.genuine_nextToken _ _).newline
  · rw [start_eq]
    exact fetch_ended _ hsecond

namespace Program

variable {options : Options} {name : String} {body : Block}

theorem faces_start (hbody : WellFormed.statements options.encoding body) :
    (start options (Render.text body) name).Faces (Render.statements body ++ [Spelling.eof]) := by
  have hlexemes := (Render.lexemes_statements body hbody).1
  obtain ⟨ts, htokens, hspelling⟩ := Spelling.tokens_joined hlexemes 0
  have halone : IsAlone options (Render.text body) := by
    intro t ht
    obtain ⟨eof, rfl⟩ := Cursor.readable_of_tokens htokens
    rw [List.map_append] at hspelling
    have hreadable := (List.append_inj' hspelling rfl).1
    have hmem : t.spelling ∈ Render.statements body := by
      rw [← hreadable]
      exact List.mem_map_of_mem ht
    have hkind := (hlexemes _ hmem).kind
    unfold Token.isDirective
    split
    next hdirective => exact absurd hdirective hkind
    next => rfl
  obtain ⟨hnone, hshows⟩ := Window.start_shows htokens halone
  rw [hspelling] at hshows
  refine ⟨plain_start halone, fun d hd => ?_, hshows⟩
  have hnil : (start options (Render.text body) name).errors = #[] := by
    show (Window.ofText options.encoding (Spelling.joined (Render.statements body)) 0).start.1.toArray = #[]
    rw [hnone]
    rfl
  rw [hnil] at hd
  cases hd

/-! ### Reading it -/

theorem regains_wholeText {c : Settings} {levels : Nat} (mode : Encoding) (hbody : WellFormed.statements mode body) :
    Regains c (levels ≤ 2 * (Render.statements body).length) (Render.statements body ++ [Spelling.eof]) (wholeText levels)
      Bare.statements body [Spelling.eof] := by
  have hcloses : Closes [Spelling.eof] := rfl
  have hblock := Grammar.regains_block (rereads_grammar mode c (levels + 1)) levels.lt_succ_self hbody hcloses
  have hrounds : ∀ rounds, Regains c (levels ≤ 2 * (Render.statements body).length) (Render.statements body ++ [Spelling.eof])
      (collectRounds (textStep ((grammar (levels + 1)).block levels)) rounds) Bare.statements body [Spelling.eof] := by
    intro rounds
    cases rounds with
    | zero => exact .exhausted
    | succ => exact .last (hblock.bind fun found hfound => .token fun _ => .yes rfl (.pure ⟨hfound, rfl⟩))
  refine .quiet fun _ => .quiet fun _ => (Yields.collect (hrounds c.rounds)).bind fun found hfound => ?_
  exact .quiet fun _ => .quiet fun _ => .pure hfound

/-- The text of a block is read as the block again, apart from places and from the notes which names are locals, and no
fault but those of control flow is found, unless a statement is given up for lack of levels. There is no such lack where
the levels are more than twice as many as the tokens. -/
theorem parse_text (options : Options) (name : String) (body : Block)
    (hbody : WellFormed.statements options.encoding body)
    (hlevels : 2 * (Render.statements body).length < options.maxDepth ∨
      ∀ d ∈ (parse options (Render.text body) name).errors, d.fault ≠ .tooManyLevels) :
    Bare.statements (parse options (Render.text body) name).body = Bare.statements body ∧
      ∀ d ∈ (parse options (Render.text body) name).errors, d.fault.isFlow = true := by
  obtain ⟨found, last, hrun⟩ := exists_run_eq_ok options (Render.text body) name
  rw [parse_eq hrun] at hlevels ⊢
  have hread : Outcome.Expected _ _ (run options (Render.text body) name) :=
    regains_wholeText options.encoding hbody _ (faces_start hbody)
  rw [hrun] at hread
  cases hread with
  | ok h => exact ⟨h.1, h.2.clean⟩
  | givesUp h hlack =>
    obtain ⟨d, hd, hfault⟩ := h
    obtain hmany | hnone := hlevels
    · omega
    · exact absurd hfault (hnone d hd)

/-- A program of a method and a loop, with operators of all kinds and a jump to nowhere. -/
def woven : Block :=
  let id (name : String) : Identifier := { name, span := default }
  let use (name : String) : Expr := .name (id name)
  [.function (.member (.member (use "t") .dot (id "f") default) .colon (id "m") default) false
      { parameters := [.name (id "a"), .vararg default]
        body :=
          [.ret
            [.binary .concat
              (.unary .neg (.binary .pow (use "a") (.binary .pow (use "b") (.unary .len (use "c") default) default) default) default)
              (.string none "'x'" default) default,
              .tableCall (.member (.index (.logical .or (use "a") (use "b") default) (use "c") default) .colon (id "g") default)
                ⟨[.named (id "d") (.vararg default) default, .keyed (use "e") (.unary .not (use "a") default) default],
                  default⟩ default] default]
        span := default },
    .repeatLoop
      [.declare [id "p", id "q"] [.stringCall (use "f") (.string none "'x'" default) default] default, .goto (id "out") default]
      (.binary .sub (use "p") (.binary .sub (use "q") (use "p") default) default) default]

/-- The text of the program is read again, with one fault of control flow. -/
theorem parse_text_woven :
    Render.text woven = "function t . f : m ( a , ... ) return - a ^ b ^ # c .. 'x' , ( a or b ) [ c ] : g \x7b d = ... , " ++
      "[ e ] = not a \x7d end ; repeat local p , q = f 'x' ; goto out until p - ( q - p )" ∧
    WellFormed.statements .discard woven ∧ 2 * (Render.statements woven).length < 200 ∧
    Bare.statements (parse {} (Render.text woven) "main.lua").body = Bare.statements woven ∧
    (∀ d ∈ (parse {} (Render.text woven) "main.lua").errors, d.fault.isFlow = true) ∧
    (parse {} (Render.text woven) "main.lua").errors.length = 1 := by
  have hname : ∀ text ∈ ["t", "f", "m", "a", "b", "c", "g", "d", "e", "p", "q", "out"],
      WellFormed.name .discard { name := text, span := default } := by
    simp only [List.forall_mem_cons, List.not_mem_nil, false_imp_iff, implies_true, and_true]
    refine ⟨?_, ?_, ?_, ?_, ?_, ?_, ?_, ?_, ?_, ?_, ?_, ?_⟩ <;>
      exact Spelling.IsLexeme.isToken ⟨⟨_, _, rfl, rfl, rfl, rfl⟩, TokenKind.noConfusion⟩
  have hquoted : Quoted.read .discard '\'' 1 ['x', '\''] = .closed 3 ['x'] none := by decide +kernel
  have hlexeme : Lexeme.read .discard 1 true '\'' ['x', '\''] = Lexeme.whole ['\'', 'x', '\''] (.string none) := by
    show Lexeme.quoted .discard '\'' ['x', '\''] = _
    rw [Lexeme.quoted, hquoted]
    rfl
  have hstring : Spelling.IsToken .discard ⟨.string none, "'x'"⟩ :=
    Spelling.IsLexeme.isToken ⟨⟨'\'', ['x', '\''], rfl, rfl, rfl, hlexeme⟩, TokenKind.noConfusion⟩
  have hbody : WellFormed.statements .discard woven := by
    simp only [List.forall_mem_cons] at hname
    simp [woven, WellFormed.statements, WellFormed.statement, WellFormed.functionName, WellFormed.dottedName,
      WellFormed.functionBody, WellFormed.parameters, WellFormed.expressions, WellFormed.expression, WellFormed.table,
      WellFormed.fields, WellFormed.field, Expr.isString, Stmt.isReturn, hname, hstring]
  have hshort : 2 * (Render.statements woven).length < 200 := by decide +kernel
  obtain ⟨hsame, hflow⟩ := parse_text {} "main.lua" woven hbody (.inl hshort)
  exact ⟨by decide +kernel, hbody, hshort, hsame, hflow, by decide +kernel⟩

end Program

end CartLua
