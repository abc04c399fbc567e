import CartLua.Proofs.Sequel
/-!
# Errors stay behind what is complete

A program that has been read without errors is read again when it goes on, with anything at all, behind a semicolon on a
line of its own. Its statements are found again whatever errors follow. Only the last one is at stake: the parser looks
one token ahead, so that text which is no token costs the statement before the semicolon; and where nothing stands behind
the last `else` of an if statement on one line, the statement was not complete.
-/

namespace CartLua

open Cursor

namespace Program

open Session Parse Comparison

variable {options : Options} {source whole name : String} {more : List Char} {lineless followed faulty broken : Prop}

theorem exists_block_of_parse (herrors : (parse options source name).errors = []) :
    ∃ t, ((grammar (options.maxDepth + 1)).block options.maxDepth).run (settings options source)
        (opened (start options source name)) = .ok (parse options source name).body t ∧
      t.window.token.isEof = true ∧ t.errors.toList = [] ∧ (Window.ofText options.encoding source 0).start.1 = none := by
  obtain ⟨body, last, hrun⟩ := exists_run_eq_ok options source name
  rw [parse, hrun] at herrors ⊢
  have hlast : last.errors.toList = [] := herrors
  obtain ⟨xs, t, hblock, -, hreach, hwhole, heof⟩ := exists_block_of_wholeText hrun
  have heof := heof hlast
  obtain rfl := hwhole heof
  have herrors : ∀ {s}, Reaches (settings options source) s last → s.errors.toList = [] := by
    intro s hreach
    have hprefix := hreach.errors_prefix
    rwa [hlast, List.prefix_nil] at hprefix
  refine ⟨t, hblock, heof, herrors hreach, ?_⟩
  have hstart := herrors (reaches hrun)
  cases hfault : (Window.ofText options.encoding source 0).start.1 with
  | none => rfl
  | some => simp [start, hfault] at hstart

theorem start_related {mask : Mask} (hheader : ¬Cartridge.header <+: source.toList)
    (hwhole : whole.toList = source.toList ++ '\n' :: more) (hsequel : Sequel options.encoding followed faulty broken more)
    (hnone : (Window.ofText options.encoding source 0).start.1 = none) (halone : ¬lineless → IsAlone options source) :
    (sequel mask (settings options source) (settings options whole) more lineless followed faulty broken).Related
      (opened (start options source name)) (opened (start options whole name)) := by
  refine ⟨⟨⟨.root (Window.start_leads hsequel hheader hwhole hnone), rfl, fun h => absurd rfl h⟩, fun h => ?_⟩, fun _ => ?_⟩
  · have hplain : (start options source name).Plain := plain_start (halone h)
    exact ⟨hplain.alone, hplain.window⟩
  · exact ⟨rfl, rfl, rfl, rfl, rfl, fun h => absurd trivial h⟩

theorem reappears_block (mask : Mask) (lineless : Prop) (hplaces : mask.places = false)
    (hheader : ¬Cartridge.header <+: source.toList) (hwhole : whole.toList = source.toList ++ '\n' :: more)
    (hsequel : Sequel options.encoding followed faulty broken more) (hbroken : broken → lineless)
    (hfollowed : followed → faulty) (halone : ¬lineless → IsAlone options source)
    (hnone : (Window.ofText options.encoding source 0).start.1 = none) {xs zs : Block} {t u : Session}
    (hblock : ((grammar (options.maxDepth + 1)).block options.maxDepth).run (settings options source)
      (opened (start options source name)) = .ok xs t) (heof : t.window.token.isEof = true) (hclean : t.errors.toList = [])
    (hblock' : ((grammar (options.maxDepth + 1)).block options.maxDepth).run (settings options whole)
      (opened (start options whole name)) = .ok zs u) :
    (sequel mask (settings options source) (settings options whole) more lineless followed faulty broken).Reappears
      ((grammar (options.maxDepth + 1)).statement options.maxDepth) xs zs t u := by
  let k := sequel mask (settings options source) (settings options whole) more lineless followed faulty broken
  have : k.Lawful := lawful_sequel hplaces rfl rfl hsequel hbroken hfollowed
  have hstart : k.Related (opened (start options source name)) (opened (start options whole name)) :=
    start_related hheader hwhole hsequel hnone halone
  have hmode : (start options source name).window.newlines = false := newlines_start
  exact reappears_rounds (k := k) trivial (fun h heof => (h.1.ended heof).1) ((grammar_keepsPace k _).statement _ false) _ _
    hstart (.inr hmode) hblock hblock' (fun h => h.2 hclean) heof

theorem sequel_semicolon (mode : Encoding) (more : List Char) {followed : Prop}
    (hwhole : ¬broken → sound mode 1 ⟨more, {}, true⟩ = true)
    (hfaultless : ¬faulty → sound mode 2 ⟨more, {}, true⟩ = true) :
    Sequel mode followed faulty broken (';' :: '\n' :: more) := by
  intro e hrest
  let c := (e.extend ('\n' :: ';' :: '\n' :: more)).skip 1
  have hlong : (e.extend ('\n' :: ';' :: '\n' :: more)).rest = '\n' :: ';' :: '\n' :: more := by
    rw [extend, hrest, List.nil_append]
  have hc : c.rest = ';' :: '\n' :: more := by rw [rest_skip, hlong]; rfl
  have hbehind : (c.skip 1).rest = '\n' :: more := by rw [rest_skip, hc]; rfl
  have hline : c.position.line = e.position.line + 1 := by
    show (skip _ 1).position.line = _
    rw [skip_cons hlong]
    rfl
  have hline' : ((c.skip 1).skip 1).position.line = (c.skip 1).position.line + 1 := by
    rw [skip_cons hbehind]
    rfl
  have hsound : ∀ n, sound mode n ⟨more, {}, true⟩ = true → (c.skip 1).sound mode n = true := by
    intro n hsound
    rw [sound_newline hbehind, skip_cons hbehind]
    have hshifted : Cursor.Shifted (c.skip 1).position.line ⟨more, {}, true⟩ ⟨more, (c.skip 1).position.after '\n', true⟩ :=
      ⟨rfl, Nat.add_comm .., fun _ => rfl⟩
    exact hshifted.sound rfl hsound
  refine ⟨_, c.skip 1, (scan_newline hlong).trans (scan_semicolon hc), rfl, rfl, ?_, fun _ => ⟨rfl, ?_⟩,
    fun h => hsound 1 (hwhole h), fun h => sound_nextToken_succ (hsound 2 (hfaultless h))⟩
  · show e.position.line < c.position.line
    omega
  · rw [nextToken_newline hbehind]
    have hnext := ((c.skip 1).skip 1).line_nextToken mode
    rw [hline'] at hnext
    exact hnext

/-- Programs without errors, with what follows them. -/
def attempts : List (Options × String × String) :=
  [({}, "x=1", "\""), ({}, "return", "; \""), ({}, "if (a) b() else", ""),
    ({ store := { documents := [("f.lua", "if (a) b()")] } }, "#include f.lua", "y=2")]

/-- The numbers of statements and of words in a body. -/
def size (body : Block) : Nat × Nat := (body.length, (Words.statements body).length)

end Program

end CartLua
