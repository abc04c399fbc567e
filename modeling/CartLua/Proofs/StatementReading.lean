import CartLua.Proofs.ProgramReading
import CartLua.Proofs.Shape
/-!
# How the statements of a tree were read

The cues of a tree name every statement in it that is no label, so each of them has a derivation of its own, between two
sessions of the run that has given the tree. What a rule says about a statement then holds wherever the statement stands.
-/

namespace CartLua

open Parse Session List

variable {ts : List Token} {cue : Cue}

namespace Cues

theorem expressions_eq (ts : List Token) (es : List Expr) : expressions ts es = es.flatMap (expression ts) := by
  induction es with
  | nil => rfl
  | cons e rest ih => rw [expressions, ih, flatMap_cons]

theorem fields_eq (ts : List Token) (fs : List Field) : fields ts fs = fs.flatMap (field ts) := by
  induction fs with
  | nil => rfl
  | cons f rest ih => rw [fields, ih, flatMap_cons]

theorem statements_eq (ts : List Token) (newlines : Bool) (body : List Stmt) :
    statements ts newlines body = body.flatMap fun s => opening s ++ statement ts newlines s := by
  induction body with
  | nil => rfl
  | cons s rest ih => rw [statements, ih, flatMap_cons]

theorem mem_clauses {cl : Clause} {cs : List Clause} (hcl : cl ∈ cs) (h : ∀ newlines, cue ∈ clause ts newlines cl)
    (newlines later : Bool) : cue ∈ clauses ts newlines later cs := by
  induction cs generalizing newlines later with
  | nil => cases hcl
  | cons first rest ih =>
    rw [clauses]
    obtain rfl | hcl := mem_cons.mp hcl
    · exact mem_append_left _ (h newlines)
    · exact mem_append_right _ (ih hcl later later)

end Cues

namespace Node

/-- The cue is one of the node, whether line ends are shown or not. -/
def Tells (ts : List Token) (cue : Cue) : Node → Prop
  | .expression e => cue ∈ Cues.expression ts e
  | .statement s => ∀ newlines, cue ∈ Cues.opening s ++ Cues.statement ts newlines s
  | _ => False

variable {part node : Node}

theorem Tells.of_expressions {es : List Expr} (hpart : part ∈ es.map Node.expression) (h : part.Tells ts cue) :
    cue ∈ Cues.expressions ts es := by
  obtain ⟨e, he, rfl⟩ := mem_map.mp hpart
  rw [Cues.expressions_eq]
  exact mem_flatMap.mpr ⟨e, he, h⟩

theorem Tells.of_statements {body : Block} (hpart : part ∈ body.map Node.statement) (h : part.Tells ts cue)
    (newlines : Bool) : cue ∈ Cues.statements ts newlines body := by
  obtain ⟨s, hs, rfl⟩ := mem_map.mp hpart
  rw [Cues.statements_eq]
  exact mem_flatMap.mpr ⟨s, hs, h newlines⟩

theorem Tells.of_table {tbl : Table} (hpart : part ∈ tbl.parts) (h : part.Tells ts cue) : cue ∈ Cues.table ts tbl := by
  obtain ⟨fs, span⟩ := tbl
  obtain ⟨f, hf, hpart⟩ := mem_flatMap.mp hpart
  rw [Cues.table, Cues.fields_eq]
  refine mem_flatMap.mpr ⟨f, hf, ?_⟩
  cases f <;> simp only [Field.parts, mem_cons, not_mem_nil, or_false] at hpart <;> rw [Cues.field]
  case keyed => obtain rfl | rfl := hpart <;> simp_all [Tells]
  all_goals
    subst hpart
    exact h

theorem Tells.of_function {f : FunctionBody} (hpart : part ∈ f.parts) (h : part.Tells ts cue) :
    cue ∈ Cues.function ts f := by
  obtain ⟨ps, body, span⟩ := f
  rw [Cues.function]
  exact mem_append_left _ (mem_append_right _ (h.of_statements hpart false))

theorem Tells.of_clause {cl : Clause} (hpart : part ∈ cl.parts) (h : part.Tells ts cue) (newlines : Bool) :
    cue ∈ Cues.clause ts newlines cl := by
  cases cl with
  | ifThen | elseIf =>
    rw [Cues.clause]
    obtain rfl | hpart := mem_cons.mp hpart
    · exact mem_append_left _ (mem_append_left _ h)
    · simp [h.of_statements hpart newlines]
  | otherwise =>
    rw [Cues.clause]
    simp [h.of_statements hpart newlines]

theorem Tells.of_mem_parts (hpart : part ∈ node.parts) (h : part.Tells ts cue) : node.Tells ts cue := by
  cases node with
  | expression e =>
    show cue ∈ Cues.expression ts e
    cases e <;> simp only [parts, Expr.parts, mem_cons, not_mem_nil, or_false] at hpart <;> rw [Cues.expression]
    case table => exact h.of_table hpart
    case function => exact h.of_function hpart
    case call =>
      obtain rfl | hpart := hpart
      · exact mem_append_left _ h
      · exact mem_append_right _ (h.of_expressions hpart)
    case tableCall =>
      obtain rfl | hpart := hpart
      · exact mem_append_left _ h
      · exact mem_append_right _ (h.of_table hpart)
    case unary | member =>
      subst hpart
      exact h
    all_goals
      obtain rfl | rfl := hpart
      · exact mem_append_left _ h
      · exact mem_append_right _ h
  | statement s =>
    intro newlines
    refine mem_append_right _ ?_
    cases s with
    | assignment =>
      have hall := h.of_expressions hpart
      rw [Cues.expressions_eq, flatMap_append, ← Cues.expressions_eq, ← Cues.expressions_eq] at hall
      rw [Cues.statement]
      exact hall
    | declare =>
      rw [Cues.statement]
      exact mem_append_right _ (h.of_expressions hpart)
    | ret =>
      rw [Cues.statement]
      exact h.of_expressions hpart
    | call =>
      obtain rfl := mem_singleton.mp hpart
      rw [Cues.statement]
      exact h
    | block =>
      rw [Cues.statement]
      simp [h.of_statements hpart newlines]
    | whileLoop condition | repeatLoop body condition =>
      rw [Cues.statement]
      obtain rfl | hpart := mem_cons.mp hpart
      · have hcondition : cue ∈ Cues.expression ts condition := h
        simp [hcondition]
      · simp [h.of_statements hpart newlines]
    | branch =>
      obtain ⟨cl, hcl, hpart⟩ := mem_flatMap.mp hpart
      rw [Cues.statement]
      split
      · exact Cues.mem_clauses hcl (h.of_clause hpart) _ _
      · exact Cues.mem_clauses hcl (h.of_clause hpart) _ _
    | forNumeric =>
      rw [Cues.statement, ← Cues.expressions_toList]
      obtain hpart | hpart := mem_append.mp hpart
      · have hvalues := h.of_expressions hpart
        rw [Cues.expressions, Cues.expressions] at hvalues
        simp only [mem_append] at hvalues
        obtain hvalue | hvalue | hvalue := hvalues <;> simp [hvalue]
      · simp [h.of_statements hpart newlines]
    | forGeneric =>
      rw [Cues.statement]
      obtain hpart | hpart := mem_append.mp hpart
      · simp [h.of_expressions hpart]
      · simp [h.of_statements hpart newlines]
    | function =>
      rw [Cues.statement]
      exact mem_append_right _ (h.of_function hpart)
    | breakLoop | goto | label | inclusion => cases hpart
  | _ => cases hpart

/-- The cues of a sound tree name every statement in it that is no label. A name of a local has no cues, and it has no
parts. -/
theorem AllSound.tells {stmt : Stmt} (hall : node.AllSound) (hproper : stmt.isProper = true)
    (h : Relation.ReflTransGen Holds node (.statement stmt)) : node.Tells ts (.proper stmt) := by
  induction h using Relation.ReflTransGen.head_induction_on with
  | refl =>
    intro newlines
    simp [Cues.opening_eq, hproper]
  | @head node part hholds _ ih =>
    obtain ⟨here, below⟩ := hall
    have hpart := ih (below _ hholds)
    obtain hparts | hname := hholds
    · exact hpart.of_mem_parts hparts
    · obtain ⟨name, isLocal, f, rfl⟩ : ∃ name isLocal f, node = .statement (.function name isLocal f) := by
        unfold functionName? at hname
        split at hname
        · exact ⟨_, _, _, rfl⟩
        · cases hname
      cases hname
      intro newlines
      rw [Cues.statement]
      cases isLocal with
      | false => exact mem_append_right _ (mem_append_left _ hpart)
      | true =>
        obtain ⟨id, rfl⟩ : ∃ id, name = .name id := by
          obtain ⟨id, hid⟩ := Option.isSome_iff_exists.mp (here.fits.2 rfl)
          cases name <;> cases hid
          exact ⟨_, rfl⟩
        simp [Tells, Cues.expression] at hpart

end Node

namespace Program

variable {options : Options} {source name : String} {s stmt : Stmt}

theorem exists_derives (hs : s ∈ (parse options source name).body)
    (h : Relation.ReflTransGen Node.Holds (.statement s) (.statement stmt)) (hproper : stmt.isProper = true) :
    ∃ levels u v last, Reaches (settings options source) (start options source name) u ∧
      Derives (settings options source) u (.proper levels stmt) v ∧ Reaches (settings options source) v last ∧
      (parse options source name).errors = last.errors.toList := by
  obtain ⟨body, last, hrun⟩ := exists_run_eq_ok options source name
  rw [parse, hrun] at hs ⊢
  have hread := (reads_wholeText false hrun).1
  obtain ⟨_, _, _, _, -, -, hbody, -⟩ := derives_wholeText hrun
  have hcue : (Node.statement s).Tells [] (.proper stmt) :=
    (hbody.shaped _ (mem_map_of_mem hs)).all.tells hproper h
  have hmem : .proper stmt ∈ Cue.openBlock false :: Cues.statements [] false body ++ [.closeBlock] := by
    rw [Cues.statements_eq]
    simp only [mem_append, mem_cons, mem_flatMap]
    exact .inl (.inr ⟨s, hs, mem_append.mp (hcue false)⟩)
  obtain ⟨levels, u, v, hu, hstmt, hv⟩ := hread.statements [] stmt hmem
  exact ⟨levels, u, v, last, hu, hstmt, hv, rfl⟩

/-- **One value for a compound operator.** Wherever an assignment with a compound operator stands in a program, and whatever
is included and whatever errors there are, exactly one value is assigned. It may have more targets than one, and all of
them can be assigned to. -/
theorem values_of_compound (options : Options) (source name : String) (s : Stmt) (targets values : List Expr)
    (op : AssignOp) (span : Span) (hs : s ∈ (parse options source name).body)
    (hnode : Relation.ReflTransGen Node.Holds (.statement s) (.statement (.assignment targets op values span)))
    (hop : op.isCompound = true) :
    (∃ value, values = [value]) ∧ targets ≠ [] ∧ ∀ e ∈ targets, e.isTarget = true := by
  obtain ⟨levels, u, v, last, -, hstmt, -, -⟩ := exists_derives hs hnode rfl
  obtain ⟨⟨hfits, -, -⟩, -⟩ := hstmt.shaped.all.sound .refl
  cases hstmt with
  | assignment _ _ _ _ _ _ hone _ =>
    exact ⟨List.length_eq_one_iff.mp (hone hop), hfits.1, fun e he => (hfits.2.2 e he).1⟩

/-- A method that adds to two variables at once, before a wrong statement. -/
def doubled : String := "function t:f() a,b[1]+=c d=)\n end"

def isDoubled : Block → Bool
  | [.function _ false ⟨_, [.assignment [_, _] op _ _], _⟩] => op.isCompound
  | _ => false

theorem values_of_compound_doubled : (parse {} doubled "main.lua").errors ≠ [] ∧
    ∃ name f targets op values span, .function name false f ∈ (parse {} doubled "main.lua").body ∧
      Relation.ReflTransGen Node.Holds (.statement (.function name false f))
        (.statement (.assignment targets op values span)) ∧
      op.isCompound = true ∧ targets.length = 2 ∧ ((∃ value, values = [value]) ∧ targets ≠ [] ∧
        ∀ e ∈ targets, e.isTarget = true) := by
  have hshape : isDoubled (parse {} doubled "main.lua").body = true := by decide +kernel
  unfold isDoubled at hshape
  split at hshape
  next name ps first second op values span span' hbody =>
    have hmem : .function name false ⟨ps, [.assignment [first, second] op values span], span'⟩ ∈
        (parse {} doubled "main.lua").body := hbody ▸ List.mem_singleton_self _
    have hholds : (Node.statement (.function name false ⟨ps, [.assignment [first, second] op values span], span'⟩)).Holds
        (.statement (.assignment [first, second] op values span)) := .inl (List.mem_singleton_self _)
    exact ⟨by decide +kernel, name, _, _, op, values, span, hmem, .single hholds, hshape, rfl,
      values_of_compound {} doubled "main.lua" _ _ _ _ _ hmem (.single hholds) hshape⟩
  next => cases hshape

def isCompoundPair : Block → Bool
  | [.assignment [_, _] op _ _] => op.isCompound
  | _ => false

/-- A compound operator behind two targets is accepted. -/
theorem two_targets_of_compound : (parse {} "a,b+=1" "main.lua").errors = [] ∧
    ∃ targets op values span, (parse {} "a,b+=1" "main.lua").body = [.assignment targets op values span] ∧
      op.isCompound = true ∧ targets.length = 2 := by
  have hshape : isCompoundPair (parse {} "a,b+=1" "main.lua").body = true := by decide +kernel
  unfold isCompoundPair at hshape
  split at hshape
  next hbody => exact ⟨by decide +kernel, _, _, _, _, hbody, hshape, rfl⟩
  next => cases hshape

end Program

end CartLua
