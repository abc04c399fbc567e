import CartLua.Proofs.Decoding
import CartLua.Proofs.Encodings
/-!
# Programs in two encodings

An encoding says what values strings have, and which characters strings may hold. Where it admits all characters there
are, a program is read as it is read without decoding strings.
-/

namespace CartLua

/-! ### What a mask with places shows -/

namespace Mask

variable {m : Mask}

theorem span_shown (hm : m.places = true) (s : Span) : m.span s = s := by simp [span, position, hm]

theorem diagnostic_shown (hm : m.places = true) (d : Diagnostic) : m.diagnostic d = d := by
  have hfault : m.fault d.fault = d.fault := by
    unfold fault
    split <;> simp_all [line]
  rw [diagnostic, hfault, span_shown hm]

end Mask

theorem Session.Alike.errors_eq {m : Mask} {s s' : Session} (h : Alike m (¬False) s s') (hm : m.places = true) :
    s.errors = s'.errors := by
  have herrors := h.errors
  rw [show m.diagnostic = id from funext (Mask.diagnostic_shown hm), List.map_id, List.map_id] at herrors
  exact Array.toList_inj.mp herrors

namespace Program

open Parse Comparison

variable {options : Options} {source : String}

theorem related_start {mode : Encoding} (name : String) (hsource : Admitted options.encoding mode source.toList) :
    (encodings (settings options source) (settings { options with encoding := mode } source)).Related
      (start options source name) (start { options with encoding := mode } source name) := by
  obtain ⟨hfault, hstart⟩ :=
    (Window.twins_ofText (m := { places := true, values := false }) hsource 0).start rfl rfl
  refine ⟨⟨hstart, .nil, rfl⟩, fun _ => ⟨rfl, rfl, rfl, rfl, rfl, fun _ => ?_⟩⟩
  exact congrArg (fun fault : Option Diagnostic => fault.toArray.toList.map (Mask.diagnostic _)) hfault

/-- Where an encoding that decodes strings admits all characters of a program and of the documents, the program is read as
it is read without decoding: with the same errors, globals, files and places, and with the same body up to the values of
strings, which are there in one and not in the other. -/
theorem parse_discard_of_admits (name : String) (hmode : options.encoding ≠ .discard)
    (hsource : ∀ c ∈ source.toList, options.encoding.admits c = true)
    (hstore : ∀ document ∈ options.store.documents, ∀ c ∈ document.2.toList, options.encoding.admits c = true) :
    let decoded := parse options source name
    let plain := parse { options with encoding := .discard } source name
    decoded.errors = plain.errors ∧ decoded.globals = plain.globals ∧ decoded.files = plain.files ∧
      decoded.span = plain.span ∧
      Mask.statements { places := true, values := false } decoded.body =
        Mask.statements { places := true, values := false } plain.body ∧
      (∀ value raw, Word.string value raw ∈ Words.statements decoded.body → value.isSome = true) ∧
      (∀ value raw, Word.string value raw ∈ Words.statements plain.body → value = none) := by
  intro decoded plain
  have hadmitted : ∀ {text : List Char}, (∀ c ∈ text, options.encoding.admits c = true) →
      Admitted options.encoding .discard text := fun h c hc => ⟨h c hc, rfl⟩
  have hrelated := related_start name (hadmitted hsource)
  let k := encodings (settings options source) (settings { options with encoding := .discard } source)
  have : k.Lawful := lawful_encodings rfl fun document hdocument => hadmitted (hstore document hdocument)
  obtain ⟨body, last, hrun⟩ := exists_run_eq_ok options source name
  obtain ⟨body', last', hrun'⟩ := exists_run_eq_ok { options with encoding := .discard } source name
  have hpace := agree_wholeText (k := k) id options.maxDepth _ _ hrelated trivial
  rw [show (wholeText options.maxDepth).run k.first (start options source name) = _ from hrun,
    show (wholeText options.maxDepth).run k.second (start { options with encoding := .discard } source name) = _ from hrun']
    at hpace
  have hdecoded : decoded = ofSessions body (start options source name) last := by
    simp only [decoded, parse, hrun]
  have hplain : plain = ofSessions body' (start { options with encoding := .discard } source name) last' := by
    simp only [plain, parse, hrun']
  obtain ⟨hlost, -⟩ | hexhausted | ⟨_, _, hok, hbody, hlast⟩ | ⟨hopen, -⟩ := hpace
  · exact hlost.elim
  · cases hexhausted
  · cases hok
    have halike := hlast.alike trivial
    refine ⟨?_, ?_, ?_, ?_, ?_, ?_, ?_⟩
    · rw [hdecoded, hplain, ofSessions, ofSessions, halike.errors_eq rfl]
    · rw [hdecoded, hplain, ofSessions, ofSessions, halike.globals]
    · rw [hdecoded, hplain, ofSessions, ofSessions, hlast.abreast.files]
    · rw [hdecoded, hplain, ofSessions, ofSessions, Window.Twins.span_eq rfl hrelated.abreast.window.token,
        Window.Twins.span_eq rfl hlast.abreast.window.token]
    · rw [hdecoded, hplain, Mask.statements_eq_map, Mask.statements_eq_map]
      exact hbody
    · intro value raw hmem
      have hvalue : value.isSome = !options.encoding.discards := decoded_parse options source name _ hmem
      cases hencoding : options.encoding with
      | discard => exact absurd hencoding hmode
      | identity | privateUse => rw [hvalue, hencoding]; rfl
    · intro value raw hmem
      have hvalue : value.isSome = false := decoded_parse { options with encoding := .discard } source name _ hmem
      exact Option.isNone_iff_eq_none.mp (Option.isSome_eq_false_iff.mp hvalue)
  · exact hopen.elim

/-- Strings with escapes and without, with a wrong escape, and in an included document. -/
def spoken : String := "s='\\65é'..[[ä]]\nt='\\q'\n#include more.lua\nu=)"

/-- The document it includes holds a string too. -/
def spokenOptions : Options := { encoding := .identity, store := { documents := [("more.lua", "v='ü'")] } }

/-- A program with two errors is read alike whether or not the three strings that are left in it are decoded. -/
theorem parse_discard_of_admits_spoken :
    let decoded := parse spokenOptions spoken "a.lua"
    let plain := parse { spokenOptions with encoding := .discard } spoken "a.lua"
    (decoded.errors = plain.errors ∧ decoded.globals = plain.globals ∧ decoded.files = plain.files ∧
      decoded.span = plain.span ∧
      Mask.statements { places := true, values := false } decoded.body =
        Mask.statements { places := true, values := false } plain.body ∧
      (∀ value raw, Word.string value raw ∈ Words.statements decoded.body → value.isSome = true) ∧
      (∀ value raw, Word.string value raw ∈ Words.statements plain.body → value = none)) ∧
      decoded.errors.length = 2 ∧ decoded.files = ["a.lua", "more.lua"] ∧
      (Words.statements decoded.body).filterMap (fun | .string value _ => value | _ => none) = ["Aé", "ä", "ü"] := by
  have hspoken : spoken.toList.all spokenOptions.encoding.admits = true := by decide +kernel
  have hstore : ∀ document ∈ spokenOptions.store.documents,
      document.2.toList.all spokenOptions.encoding.admits = true := by decide +kernel
  have hread := @parse_discard_of_admits spokenOptions spoken "a.lua" (by decide) (List.all_eq_true.mp hspoken)
    fun document hdocument => List.all_eq_true.mp (hstore document hdocument)
  exact ⟨hread, by decide +kernel, by decide +kernel, by decide +kernel⟩

end Program

end CartLua
