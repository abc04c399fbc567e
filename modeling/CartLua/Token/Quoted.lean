import CartLua.Token.Escape
/-!
# Quoted strings

A quoted string is a sequence of raw runs and escapes. Reading goes on behind a wrong part, so that it always ends
behind the closing quote; the first wrong part is what gets reported. Only an unfinished string ends early.
-/

namespace CartLua

/-- A fault of a token, between two offsets from the start of the token. -/
structure Flaw where
  fault : Fault
  start : Nat
  stop : Nat
deriving DecidableEq, Inhabited, Repr

inductive Quoted where
  | unfinished (offset : Nat)
  | closed (offset : Nat) (value : List Char) (flaw : Option Flaw)
deriving DecidableEq, Inhabited, Repr

namespace Quoted

def isPlain (quote c : Char) : Bool := c != quote && c != '\\' && c != '\n' && c != '\r'

/-- Puts a part, with its own flaw, before what follows it. -/
def cons (part : List Char) (flaw : Option Flaw) : Quoted → Quoted
  | .unfinished offset => .unfinished offset
  | .closed offset value later => .closed offset (part ++ value) (flaw <|> later)

def runFlaw? (mode : Encoding) (run : List Char) (offset : Nat) : Option Flaw :=
  (mode.offending? run).map fun c => ⟨.characterNotAllowed c, 0, offset⟩

def escapeFlaw? (escape : Escape) (near : List Char) (offset : Nat) : Option Flaw :=
  match escape with
  | .wrong flaw => some ⟨flaw.fault (String.ofList ('\\' :: near)), offset, offset + 1 + near.length⟩
  | _ => none

/-- Reads a string from the offset where `text` stands to behind its closing quote. -/
def read (mode : Encoding) (quote : Char) (offset : Nat) (text : List Char) : Quoted :=
  let run := text.takeWhile (isPlain quote)
  let reached := offset + run.length
  match h : text.drop run.length with
  | [] => .unfinished reached
  | c :: rest =>
    if c = '\\' then
      let (escape, length) := Escape.read rest
      let near := rest.take length
      cons run (runFlaw? mode run reached) <|
        cons (escape.meaning mode) (escapeFlaw? escape near reached) <|
          read mode quote (reached + 1 + length) (rest.drop length)
    else if c = quote then .closed (reached + 1) run (runFlaw? mode run reached)
    else .unfinished reached
termination_by text.length
decreasing_by
  have := congrArg List.length h
  simp only [List.length_drop, List.length_cons] at this ⊢
  omega

/-! ### Flaws -/

variable {mode : Encoding}

def IsPartFault (fault : Fault) : Prop :=
  (∃ c, fault = .characterNotAllowed c) ∨ ∃ (reason : EscapeFlaw) (near : String), fault = reason.fault near

theorem IsPartFault.isLexical {fault : Fault} (h : IsPartFault fault) : fault.isLexical = true := by
  obtain ⟨c, rfl⟩ | ⟨reason, near, rfl⟩ := h
  · rfl
  · cases reason <;> rfl

theorem isPartFault_of_runFlaw {run : List Char} {offset : Nat} {flaw : Flaw} (h : runFlaw? mode run offset = some flaw) :
    IsPartFault flaw.fault := by
  obtain ⟨c, -, rfl⟩ := Option.map_eq_some_iff.mp h
  exact .inl ⟨c, rfl⟩

theorem isPartFault_of_escapeFlaw {escape : Escape} {near : List Char} {offset : Nat} {flaw : Flaw}
    (h : escapeFlaw? escape near offset = some flaw) : IsPartFault flaw.fault := by
  unfold escapeFlaw? at h
  split at h
  next reason =>
    cases h
    exact .inr ⟨reason, _, rfl⟩
  · cases h

/-- The flaw of a string is that of its first wrong part. -/
theorem cons_flaw {part value : List Char} {first : Option Flaw} {later : Quoted} {stop : Nat} {flaw : Flaw}
    (h : cons part first later = .closed stop value (some flaw)) :
    first = some flaw ∨ ∃ value, later = .closed stop value (some flaw) := by
  cases later with
  | unfinished => cases h
  | closed =>
    cases first <;> cases h
    · exact .inr ⟨_, rfl⟩
    · exact .inl rfl

theorem isPartFault_of_read {quote : Char} {offset stop : Nat} {chars value : List Char} {flaw : Flaw}
    (h : read mode quote offset chars = .closed stop value (some flaw)) : IsPartFault flaw.fault := by
  fun_induction read mode quote offset chars generalizing stop value flaw with
  | case1 => cases h
  | case2 =>
    rename_i ih
    obtain hrun | ⟨_, h⟩ := cons_flaw h
    · exact isPartFault_of_runFlaw hrun
    obtain hescape | ⟨_, h⟩ := cons_flaw h
    · exact isPartFault_of_escapeFlaw hescape
    · exact ih h
  | case3 =>
    injection h with _ _ hflaw
    exact isPartFault_of_runFlaw hflaw
  | case4 => cases h

end Quoted

end CartLua
