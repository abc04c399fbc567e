import CartLua.Proofs.GrammarBalance
/-!
# Every parse ends

Every round of a loop over statements passes a token or is the last one, and the include stack holds every stored document
once at most. So a program is read to its end, whatever it contains, and nothing is open there.
-/

namespace CartLua

open List Window

variable {s : Session}

namespace Program

open Parse

variable {c : Settings} (levels depth : Nat)

instance (block : Parse Block) [Balanced c block] : Balanced c (textStep block) := by
  unfold textStep
  infer_instance

instance (block : Parse Block) [Infallible block] : Infallible (textStep block) := by
  unfold textStep
  infer_instance

theorem spends_textStep (block : Parse Block) : Spends c (textStep block) := by
  intro s found t hs h
  obtain ⟨body, u, hblock, h⟩ := run_bind_eq_ok.mp h
  refine lt_of_lt_of_le ?_ (remaining_le hs hblock)
  obtain ⟨k, v, htoken, h⟩ := run_bind_eq_ok.mp h
  cases htoken
  rw [run_ite] at h
  split_ifs at h with heof
  · cases h
  · obtain ⟨d, v, hlook, h⟩ := run_bind_eq_ok.mp h
    cases hlook
    obtain ⟨_, v, hreport, h⟩ := run_bind_eq_ok.mp h
    cases hreport
    obtain ⟨_, w, hskip, h⟩ := run_bind_eq_ok.mp h
    cases h
    have htoken : u.window.token.isEof = false := by simpa using heof
    exact remaining_skipToken_lt (s := u.report [u.unexpectedToken]) htoken hskip

instance : Infallible ((grammar depth).block levels) := inferInstanceAs (Infallible (Parse.block _))

theorem keeps_wholeText (origin : Session) (x : Place) {base : Nesting} (hbase : base.Under x.nesting.openBlock) :
    Keeps c origin base x (wholeText levels) fun _ => x := by
  unfold wholeText
  have htext := Balanced.collect (spends_textStep (c := c) ((grammar (levels + 1)).block levels))
  refine .bind (.openBlock false) fun _ => ?_
  refine .bind .openScope fun _ => ?_
  refine .bind_balanced hbase.openScope fun body => ?_
  refine .bind .closeScope fun _ => ?_
  exact .bind .closeBlock fun _ => .pure _ _ rfl

instance : Balanced c (wholeText levels) :=
  .of_keeps fun origin x => keeps_wholeText levels origin x (Nesting.Under.refl _).openBlock

instance : Infallible (wholeText levels) := by
  unfold wholeText
  infer_instance

theorem orderly_start (options : Options) (source name : String) :
    (start options source name).Orderly (settings options source) := by
  have hfile : (start options source name).window.file = 0 := Session.start_ofText_file options.encoding source 0
  have hwindows : (start options source name).windows = [(start options source name).window] := rfl
  have hopen : (start options source name).openFiles = [Path.normalize name] := by
    rw [Session.openFiles, hwindows]
    simp only [filterMap_cons, hfile, filterMap_nil]
    rfl
  refine ⟨?_, ?_, ?_, ?_⟩
  · rw [hwindows]
    intro w hw
    rw [mem_singleton.mp hw]
    exact Session.start_ofText_coherent options.encoding source 0
  · rw [hwindows]
    intro w hw
    rw [mem_singleton.mp hw, hfile]
    exact Nat.zero_lt_one
  · rw [hopen]
    exact nodup_singleton _
  · rw [hopen]
    exact fun path hpath => absurd hpath (by simp)

theorem remaining_start_lt (options : Options) (source name : String) :
    (start options source name).remaining (settings options source) < (settings options source).rounds := by
  have hsteps := Session.start_ofText_steps_le options.encoding source 0
  have hpower : 0 < (2 * options.store.longest + 1) ^ options.store.documents.length := by positivity
  have hlt : (ofText options.encoding source 0).start.2.steps < 2 * source.length + 1 := by omega
  have hmul := Nat.mul_lt_mul_of_pos_right hlt hpower
  simpa [Session.remaining, weigh, Session.windows, start, settings, roundsBound] using hmul

theorem exists_run_eq_ok (options : Options) (source name : String) :
    ∃ body last, run options source name = .ok body last := by
  have hbalanced : Balanced (settings options source) (wholeText options.maxDepth) := inferInstance
  have hne := hbalanced.ne_exhausted (orderly_start options source name) (remaining_start_lt options source name)
  have hinfallible : Infallible (wholeText options.maxDepth) := inferInstance
  cases hrun : run options source name with
  | ok body last => exact ⟨body, last, rfl⟩
  | fault d last => exact absurd hrun (hinfallible.ne_fault _ _ d last)
  | exhausted => exact absurd hrun hne

theorem isFlow_of_errors_nil {options : Options} {source name : String} (herrors : (parse options source name).errors = []) :
    ∀ d ∈ (parse options source name).errors, d.fault.isFlow = true := by
  rw [herrors]
  exact fun d hd => absurd hd not_mem_nil

/-- One round of a loop gives something, and passes a token unless it is the last one. -/
def Round {α : Type} (c : Settings) (s : Session) (step : Parse α) (isLast : α → Bool) : Prop :=
  ∃ a t, step.run c s = .ok a t ∧ (isLast a = false → t.remaining c < s.remaining c)

theorem round_of_spends {α : Type} {step : Parse (α × Bool)} [hfinishes : Finishes c step]
    [hinfallible : Infallible step] (hspends : Spends c step) (hs : s.Orderly c) (hrounds : s.remaining c < c.rounds) :
    Round c s step (!·.2) := by
  cases hrun : step.run c s with
  | ok a t =>
    obtain ⟨found, more⟩ := a
    refine ⟨(found, more), t, hrun, fun hmore => ?_⟩
    simp only [Bool.not_eq_eq_eq_not, Bool.not_false] at hmore
    exact hspends s found t hs (hmore ▸ hrun)
  | fault d t => exact absurd hrun (hinfallible.ne_fault c s d t)
  | exhausted => exact absurd hrun (hfinishes.ne_exhausted hs hrounds)

theorem round_skipLineStep (hs : s.Orderly c) (hrounds : s.remaining c < c.rounds) (file : FileId) (consumed : Bool) :
    Round c s (skipLineStep file consumed) Option.isSome := by
  have hfinishes : Finishes c (skipLineStep file consumed) := inferInstance
  have hinfallible : Infallible (skipLineStep file consumed) := inferInstance
  cases hrun : (skipLineStep file consumed).run c s with
  | ok r t =>
    refine ⟨r, t, hrun, fun hlast => ?_⟩
    rw [Option.isSome_eq_false_iff, Option.isNone_iff_eq_none] at hlast
    subst hlast
    exact remaining_skipLineStep_lt hrun
  | fault d t => exact absurd hrun (hinfallible.ne_fault c s d t)
  | exhausted => exact absurd hrun (hfinishes.ne_exhausted hs hrounds)

/-- Every program is read to its end, whatever documents its include lines name. In every session on the way there, a
round of reading a block, of skipping a line after a fault and of reading the whole text passes a token or is the last
one, and the include stack is no higher than there are stored documents. -/
theorem parse_ends (options : Options) (source name : String) :
    (∃ body last, run options source name = .ok body last ∧
      parse options source name = ofSessions body (start options source name) last) ∧
    ∀ s, Session.Reaches (settings options source) (start options source name) s →
      s.suspended.length ≤ options.store.documents.length ∧
      (∀ depth levels, Round (settings options source) s (blockStep ((grammar depth).statement levels)) (!·.2)) ∧
      (∀ file consumed, Round (settings options source) s (skipLineStep file consumed) Option.isSome) ∧
      ∀ depth levels, Round (settings options source) s (textStep ((grammar depth).block levels)) (!·.2) := by
  constructor
  · obtain ⟨body, last, hrun⟩ := exists_run_eq_ok options source name
    refine ⟨body, last, hrun, ?_⟩
    rw [parse, hrun]
  · intro s hreach
    have hs := hreach.orderly (orderly_start options source name)
    have hrounds := (hreach.remaining_le (orderly_start options source name)).trans_lt
      (remaining_start_lt options source name)
    refine ⟨hs.length_suspended_le, ?_, ?_, ?_⟩
    · exact fun depth levels => round_of_spends (spends_blockStep _) hs hrounds
    · exact fun file consumed => round_skipLineStep hs hrounds file consumed
    · exact fun depth levels => round_of_spends (spends_textStep _) hs hrounds

def ring : Options :=
  { store := { documents := [("a.lua", "#include b.lua\nx = 1"), ("b.lua", "y = 2\n#include a.lua")] } }

/-- The session of a program that has just entered the ring. -/
def inRing : Session := (start ring "#include a.lua" "main.lua").passInclude (settings ring "#include a.lua")

/-- A program that enters two documents that include each other is read to its end. -/
theorem parse_ends_ring : inRing.suspended.length = 1 ∧
    Session.Reaches (settings ring "#include a.lua") (start ring "#include a.lua" "main.lua") inRing ∧
    Round (settings ring "#include a.lua") inRing (blockStep ((grammar 9).statement 8)) (!·.2) ∧
    ∃ body last, run ring "#include a.lua" "main.lua" = .ok body last := by
  have hkind : (start ring "#include a.lua" "main.lua").window.token.kind = .directive := by
    have hdescribe : (start ring "#include a.lua" "main.lua").window.token.kind.describe = "directive" := by
      decide +kernel
    generalize (start ring "#include a.lua" "main.lua").window.token.kind = kind at hdescribe
    cases kind with
    | directive => rfl
    | _ => simp [TokenKind.describe] at hdescribe
  have hreach : Session.Reaches (settings ring "#include a.lua") (start ring "#include a.lua" "main.lua") inRing :=
    .single (.directive _ hkind)
  obtain ⟨⟨body, last, hrun, -⟩, hrounds⟩ := parse_ends ring "#include a.lua" "main.lua"
  exact ⟨by decide +kernel, hreach, (hrounds inRing hreach).2.1 9 8, body, last, hrun⟩

end Program

/-! ### Where a program ends -/

namespace Session

variable {c : Settings} {s t : Session}

/-- The root document is the last one of the open ones, and no document is read on behind its end. -/
structure Rooted (s : Session) : Prop where
  root : (s.windows.map Window.file).getLast? = some 0
  finished : s.window.token.isEof = true → s.suspended = []

theorem unwind_finished (w : Window) (below : List Suspended) (h : (unwind w below).1.token.isEof = true) :
    (unwind w below).2 = [] := by
  induction below generalizing w with
  | nil => rfl
  | cons b rest ih =>
    unfold unwind at h ⊢
    split at h
    next heof =>
      rw [if_pos heof]
      exact ih _ h
    next heof => exact absurd h heof

theorem Rooted.resume {w : Window} (h : ((w :: s.suspended.map (·.window)).map file).getLast? = some 0) :
    (s.resume w).Rooted := by
  refine ⟨?_, unwind_finished w s.suspended⟩
  obtain ⟨above, habove⟩ := unwind_files w s.suspended
  rw [← habove, map_cons, getLast?_append_cons] at h
  rw [windows_resume]
  exact h

theorem root_openInclude (h : (s.windows.map file).getLast? = some 0) (target : String) (span : Span) :
    ((openInclude c s target span).windows.map file).getLast? = some 0 := by
  unfold windows
  obtain ⟨hwindow, hsuspended, -⟩ | ⟨path, contents, -, -, -, hsuspended, -⟩ := openInclude_cases c s target span
  · rw [hwindow, hsuspended]
    exact h
  · rw [hsuspended, map_cons, map_cons, map_cons, getLast?_cons_cons]
    exact h

theorem Act.rooted (h : Act c s t) (hs : s.Rooted) : t.Rooted := by
  obtain ⟨hwindow, hsuspended, -⟩ | rfl | ⟨shown, rfl⟩ | ⟨-, rfl⟩ := h.cases_window
  · refine ⟨?_, ?_⟩
    · rw [windows, hwindow, hsuspended]
      exact hs.root
    · rw [hwindow, hsuspended]
      exact hs.finished
  · apply Rooted.resume
    rw [map_cons, next_file]
    exact hs.root
  · apply Rooted.resume
    rw [map_cons, setNewlines_file]
    exact hs.root
  · rw [passInclude_eq]
    apply Rooted.resume
    apply root_openInclude
    show ((s.window.next.2 :: s.suspended.map (·.window)).map file).getLast? = some 0
    rw [map_cons, next_file]
    exact hs.root

theorem Reaches.rooted (h : Reaches c s t) (hs : s.Rooted) : t.Rooted :=
  h.keeps Act.rooted hs

end Session

namespace Program

open Parse Session

variable {c : Settings} {options : Options} {s t : Session} {source name : String}

theorem parse_eq {body : Block} {last : Session} (hrun : run options source name = .ok body last) :
    parse options source name = ofSessions body (start options source name) last := by
  rw [parse, hrun]

theorem last_of_collect {α : Type} {step : Parse (List α × Bool)} {found : List α}
    (h : (collect step).run c s = .ok found t) : ∃ u last, step.run c u = .ok (last, false) t := by
  refine collect_induction (motive := fun _ _ => ∃ u last, step.run c u = .ok (last, false) t)
    (fun {s u found more rest} hrun hmore hdone => ?_) h
  cases more with
  | false =>
    obtain ⟨-, rfl⟩ := hdone rfl
    exact ⟨s, found, hrun⟩
  | true => exact hmore rfl

theorem isEof_of_textStep {block : Parse Block} {found : List Stmt}
    (h : (textStep block).run c s = .ok (found, false) t) : t.window.token.isEof = true := by
  obtain ⟨body, u, -, h⟩ := run_bind_eq_ok.mp h
  obtain ⟨_, _, htoken, h⟩ := run_bind_eq_ok.mp h
  cases htoken
  rw [run_ite] at h
  split at h
  next heof =>
    cases h
    exact heof
  · obtain ⟨_, _, -, h⟩ := run_bind_eq_ok.mp h
    obtain ⟨_, _, -, h⟩ := run_bind_eq_ok.mp h
    obtain ⟨_, _, -, h⟩ := run_bind_eq_ok.mp h
    cases h

theorem isEof_of_wholeText {levels : Nat} {body : Block} (h : (wholeText levels).run c s = .ok body t) :
    t.window.token.isEof = true := by
  simp only [wholeText, run_bind_eq_ok, run_pure, Outcome.ok.injEq] at h
  obtain ⟨_, _, -, _, _, -, found, u, hbody, _, _, hscope, _, _, hblock, -, rfl⟩ := h
  obtain ⟨_, _, hlast⟩ := last_of_collect hbody
  have heof : u.window.token.isEof = true := isEof_of_textStep hlast
  cases hscope
  cases hblock
  exact heof

theorem newlines_start : (start options source name).window.newlines = false := by
  show (ofText options.encoding source 0).start.2.newlines = false
  rw [start_eq, fetch_newlines, atFirst]
  exact fetch_newlines _

theorem rooted_start (options : Options) (source name : String) : (start options source name).Rooted := by
  refine ⟨?_, fun _ => rfl⟩
  show [(start options source name).window.file].getLast? = some 0
  exact congrArg some (Session.start_ofText_file options.encoding source 0)

theorem exists_block_eq_ok {s : Session}
    (h : Reaches (settings options source) (start options source name) s) (depth levels : Nat) :
    ∃ body t, ((grammar depth).block levels).run (settings options source) s = .ok body t := by
  have hs := orderly_start options source name
  have hrounds := (h.remaining_le hs).trans_lt (remaining_start_lt options source name)
  cases hrun : ((grammar depth).block levels).run (settings options source) s with
  | ok body t => exact ⟨body, t, rfl⟩
  | fault d t => exact absurd hrun (Infallible.ne_fault _ _ d t)
  | exhausted => exact absurd hrun (Finishes.ne_exhausted (h.orderly hs) hrounds)

/-- Wherever a block is read, it is read to its end, and the stacks of the session are behind it as high as they were
before it, whether its statements are right or given up; so are line ends shown as before, unless a document was entered
or left. The syntax levels that are left are an argument of the block and no part of the session, and all its statements
are read with the same. A whole program ends at the end of the root document, with nothing open. -/
theorem run_balanced (options : Options) (source name : String) :
    (∀ s, Reaches (settings options source) (start options source name) s → ∀ depth levels,
      (grammar depth).block levels = collect (blockStep ((grammar depth).statement levels)) ∧
      ∃ body t, ((grammar depth).block levels).run (settings options source) s = .ok body t ∧
        t.markers.depth = s.markers.depth ∧ t.scopes.length = s.scopes.length ∧
        t.outerFlows.length = s.outerFlows.length ∧ t.flow.depth = s.flow.depth ∧
        (Undisturbed (settings options source) s t → t.window.newlines = s.window.newlines)) ∧
    ∃ body last, run options source name = .ok body last ∧ last.markers.depth = 0 ∧ last.scopes = [] ∧
      last.outerFlows = [] ∧ last.flow.depth = 0 ∧ last.suspended = [] ∧ last.window.token.isEof = true ∧
      last.window.file = 0 := by
  constructor
  · intro s hreach depth levels
    obtain ⟨body, t, hrun⟩ := exists_block_eq_ok hreach depth levels
    have hkept : s.Kept (settings options source) t := Neat.kept hrun
    refine ⟨rfl, body, t, hrun, ?_, ?_, ?_, ?_, hkept.newlines⟩
    · exact congrArg (·.markers.length) hkept.nesting
    · exact congrArg Nesting.scopes hkept.nesting
    · have houter := congrArg (·.outerFlows.length) hkept.nesting
      simpa [nesting] using houter
    · exact congrArg Nesting.flow hkept.nesting
  · obtain ⟨body, last, hrun⟩ := exists_run_eq_ok options source name
    have hkept : (start options source name).Kept (settings options source) last := Neat.kept hrun
    have hrooted := (reaches hrun).rooted (rooted_start options source name)
    have heof := isEof_of_wholeText hrun
    have hsuspended := hrooted.finished heof
    refine ⟨body, last, hrun, ?_, ?_, ?_, ?_, hsuspended, heof, ?_⟩
    · exact congrArg (·.markers.length) hkept.nesting
    · exact List.length_eq_zero_iff.mp (congrArg Nesting.scopes hkept.nesting)
    · exact List.map_eq_nil_iff.mp (congrArg Nesting.outerFlows hkept.nesting)
    · exact congrArg Nesting.flow hkept.nesting
    · have hroot := hrooted.root
      rw [windows, hsuspended] at hroot
      exact Option.some.inj hroot

/-- A program that breaks off inside a call, an if statement on one line, a function, a table and a loop. -/
def brokenOff : String := "while a do t = \x7bfunction(b) if (b) f(("

/-- The session before the first statement of the program. -/
def beforeBrokenOff : Session := (start {} brokenOff "main.lua").openScope

def endsBrokenOff : Outcome Block → Bool
  | .ok _ t => decide (t.files = beforeBrokenOff.files ∧ t.suspended.length = 0 ∧ t.errors.size = 3)
  | _ => false

/-- The statements that are given up leave nothing open. -/
theorem run_balanced_brokenOff :
    Reaches (settings {} brokenOff) (start {} brokenOff "main.lua") beforeBrokenOff ∧
    ∃ body t, ((grammar 20).block 19).run (settings {} brokenOff) beforeBrokenOff = .ok body t ∧
      Undisturbed (settings {} brokenOff) beforeBrokenOff t ∧ t.markers.depth = 0 ∧ t.scopes.length = 1 ∧
      t.outerFlows.length = 0 ∧ t.flow.depth = 0 ∧ t.window.newlines = false ∧ t.errors.size = 3 := by
  have hreach : Reaches (settings {} brokenOff) (start {} brokenOff "main.lua") beforeBrokenOff := .single (.openScope _)
  obtain ⟨-, body, t, hrun, hmarkers, hscopes, houter, hflow, hnewlines⟩ :=
    (run_balanced {} brokenOff "main.lua").1 beforeBrokenOff hreach 20 19
  have hends : endsBrokenOff (((grammar 20).block 19).run (settings {} brokenOff) beforeBrokenOff) = true := by decide +kernel
  rw [hrun] at hends
  obtain ⟨hfiles, hsuspended, herrors⟩ := of_decide_eq_true hends
  have hquiet : Undisturbed (settings {} brokenOff) beforeBrokenOff t := by
    refine ⟨?_, hsuspended⟩
    intro file path target contents hle hpath
    rw [hfiles, Array.getElem?_eq_none hle] at hpath
    cases hpath
  have hshown : (start {} brokenOff "main.lua").window.newlines = false := newlines_start
  exact ⟨hreach, body, t, hrun, hquiet, hmarkers, hscopes, houter, hflow, (hnewlines hquiet).trans hshown, herrors⟩

/-! ### Jumps in range -/

theorem inRange_start (options : Options) (source name : String) : (start options source name).InRange :=
  forall_mem_singleton.mpr (.empty true)

/-- There is a way by sessions in range from `s` to the session of the outcome. -/
def ComesInRange {α : Type} (c : Settings) (s : Session) : Outcome α → Prop
  | .ok _ t | .fault _ t => s.ReachesInRange c t
  | .exhausted => True

theorem comesInRange {α : Type} {o : Outcome α} {base : Nesting} {P : α → Session → Prop} (h : o.Lands c s base P)
    (hs : s.InRange) (hopen : 0 < base.flow) : ComesInRange c s o := by
  cases o with
  | ok | fault => exact h.2 hs hopen
  | exhausted => trivial

end Program

end CartLua
