import CartLua.Proofs.ProgramReading
/-!
# Globals

The globals of a program are the names that it uses without a local of that name in sight, each at its first place. While
a program is read, a name is added to them only where it is missing, so no name is among them twice.
-/

namespace CartLua

open Session

/-- The names that the cues use as globals, in the order of the cues. -/
def Cues.globals (cues : List Cue) : List String :=
  cues.filterMap fun
    | .reference id => if id.isLocal then none else some id.name
    | _ => none

/-- The names that a body uses as globals, in the order of the text. -/
def Block.globals (body : Block) : List String := Cues.globals (Cues.statements [] false body)

namespace Track

variable {t : Track} {names : List String}

theorem globals_follow (h : t.globals = names.eraseDups) (cue : Cue) :
    (t.follow cue).globals = (names ++ Cues.globals [cue]).eraseDups := by
  cases cue with
  | reference id =>
    rw [Track.follow, Cues.globals, List.eraseDups_append, List.removeAll]
    by_cases hlocal : id.isLocal <;> by_cases hold : id.name ∈ names <;>
      simp [hlocal, hold, h, List.eraseDups_cons]
  | breakLoop | vararg | leaveFunction =>
    rw [Track.follow]
    split <;> simpa [Cues.globals] using h
  | _ => simpa [Cues.globals, Track.follow] using h

theorem globals_along (h : t.globals = names.eraseDups) (cues : List Cue) :
    (t.along cues).globals = (names ++ Cues.globals cues).eraseDups := by
  induction cues generalizing t names with
  | nil => simpa [Cues.globals] using h
  | cons cue cues ih =>
    rw [along_cons, ih (globals_follow h cue), List.append_assoc, Cues.globals, Cues.globals, ← List.filterMap_append]
    rfl

end Track

namespace Session

variable {c : Settings} {s t : Session}

theorem Act.nodup_globals (h : Act c s t) (hs : s.globals.toList.Nodup) : t.globals.toList.Nodup := by
  cases h with
  | addGlobal name =>
    unfold Session.addGlobal
    split
    · exact hs
    next hnew =>
      rw [Array.toList_push, ← List.concat_eq_append]
      exact hs.concat (by simp_all)
  | directive =>
    unfold passInclude openInclude
    dsimp only
    split
    · exact hs
    · split <;> exact hs
  | leaveFunction =>
    unfold Session.leaveFunction
    split <;> exact hs
  | addName =>
    unfold Session.addName
    split <;> exact hs
  | _ => exact hs

theorem Reaches.nodup_globals (h : Reaches c s t) (hs : s.globals.toList.Nodup) : t.globals.toList.Nodup :=
  h.keeps Act.nodup_globals hs

end Session

namespace Program

/-- **The globals are exact.** No name is among the globals twice. If there are no errors, they are the names that the body
uses without a local of that name in sight, each at its first place in the text. -/
theorem globals_parse (options : Options) (source name : String) :
    (parse options source name).globals.Nodup ∧ ((parse options source name).errors = [] →
      (parse options source name).globals = (Block.globals (parse options source name).body).eraseDups) := by
  obtain ⟨body, last, hrun⟩ := exists_run_eq_ok options source name
  rw [parse_eq hrun]
  refine ⟨(Parse.reaches hrun).nodup_globals List.nodup_nil, fun herrors => ?_⟩
  have htrack := (reads_wholeText false hrun).1.calm (Array.toList_eq_nil_iff.mp herrors) []
  have hglobals := congrArg Track.globals htrack
  rw [@Track.globals_along _ [] rfl] at hglobals
  refine hglobals.trans (congrArg List.eraseDups ?_)
  simp [Cues.globals, Block.globals, ofSessions]

/-- A program with a global that is used in a function, before a local of its name, and behind it. -/
def hidden : String := "f(a)local a=a,b?a function g(b)b=c end a=d"

theorem globals_parse_hidden : (parse {} hidden "main.lua").errors = [] ∧
    (parse {} hidden "main.lua").globals = ["f", "a", "b", "print", "g", "c", "d"] ∧
    (parse {} hidden "main.lua").globals.Nodup ∧
    (parse {} hidden "main.lua").globals = (Block.globals (parse {} hidden "main.lua").body).eraseDups := by
  have herrors : (parse {} hidden "main.lua").errors = [] := by decide +kernel
  obtain ⟨hnodup, hglobals⟩ := globals_parse {} hidden "main.lua"
  exact ⟨herrors, by decide +kernel, hnodup, hglobals herrors⟩

end Program

end CartLua
