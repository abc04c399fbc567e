import CartLua.Proofs.Flaws
import CartLua.Proofs.Height
import CartLua.Proofs.Render
import Mathlib.Logic.Relation
/-!
# The shape of trees

What every tree has that comes out of the parser, whatever errors its text had: the clauses of branches are in order,
nothing stands behind a return in a block, only what can be assigned to is assigned to, statements that are expressions are
calls, and methods are named only where they are called or defined. Recovery does not break any of this, as it drops whole
statements.

That a clause has a condition unless it is the last one, and that a function inside an expression has no name, is already
in the types. The statements of a program itself are no block of this kind: reading goes on behind a return there.
-/

namespace CartLua

open List

/-! ### Sound nodes -/

/-- Only the last element may satisfy the predicate. -/
def OnlyLast {α : Type} (p : α → Bool) (xs : List α) : Prop := ∀ a ∈ xs.dropLast, p a = false

theorem OnlyLast.cons {α : Type} {p : α → Bool} {a : α} {xs : List α} (ha : p a = true → xs = []) (h : OnlyLast p xs) :
    OnlyLast p (a :: xs) := by
  cases xs with
  | nil => exact nofun
  | cons b xs => exact forall_mem_cons.mpr ⟨eq_false_of_ne_true fun hp => cons_ne_nil b xs (ha hp), h⟩

namespace Clause

def isIfThen : Clause → Bool
  | .ifThen .. => true
  | _ => false

def isElseIf : Clause → Bool
  | .elseIf .. => true
  | _ => false

def isOtherwise : Clause → Bool
  | .otherwise .. => true
  | _ => false

/-- The first condition, then any number of other ones, then at most one clause without. On one line there are no other
conditions. -/
def Ordered (oneLine : Bool) (clauses : List Clause) : Prop :=
  ∃ first others last, clauses = first :: others ++ last ∧ first.isIfThen = true ∧
    (∀ cl ∈ others, cl.isElseIf = true ∧ oneLine = false) ∧ last.length ≤ 1 ∧ ∀ cl ∈ last, cl.isOtherwise = true

end Clause

namespace Node

def blocks : Node → List Block
  | .statement (.block body _) | .statement (.whileLoop _ body _) | .statement (.repeatLoop body _ _)
  | .statement (.forNumeric _ _ _ _ body _) | .statement (.forGeneric _ _ body _) => [body]
  | .statement (.branch clauses _ _) => clauses.map Clause.body
  | .statement (.function _ _ f) | .expression (.function f) => [f.body]
  | _ => []

/-- The parameters of the function that a node is. -/
def parameters : Node → List Parameter
  | .statement (.function _ _ f) | .expression (.function f) => f.parameters
  | _ => []

/-- The parts of a node without what a call calls. -/
def plainParts : Node → List Node
  | .expression (.call _ arguments _) => arguments.map .expression
  | .expression (.tableCall _ argument _) => argument.parts
  | .expression (.stringCall _ argument _) => [.expression argument]
  | node => node.parts

def isMethod : Node → Bool
  | .expression e => e.isMethod
  | _ => false

/-- What a node demands of the parts that only its kind has. -/
def Fits : Node → Prop
  | .statement (.branch clauses oneLine _) => Clause.Ordered oneLine clauses
  | .statement (.assignment targets _ values _) =>
    targets ≠ [] ∧ values ≠ [] ∧ ∀ e ∈ targets, e.isTarget = true ∧ e.isMethod = false
  | .statement (.call e _) => e.isCall = true
  | .statement (.function name isLocal _) =>
    name.dottedName?.isSome = true ∧ (isLocal = true → name.asName?.isSome = true)
  | .expression (.stringCall _ argument _) => argument.isString = true
  | _ => True

/-- What a node has to satisfy beside its parts: they fit, a return is the last of a block and `...` the last parameter. -/
structure Formed (node : Node) : Prop where
  fits : node.Fits
  returns : ∀ body ∈ node.blocks, OnlyLast Stmt.isReturn body
  varargs : OnlyLast Parameter.isVararg node.parameters

/-- A node that the parser may give. A method is named only as what is called; the name of a function is no part, so that it
may be a method as well. -/
structure Sound (node : Node) : Prop extends node.Formed where
  methods : ∀ part ∈ node.plainParts, part.isMethod = false

/-- All nodes from this one on are sound. -/
inductive AllSound : Node → Prop where
  | intro {node : Node} (here : node.Sound) (below : ∀ part, node.Holds part → AllSound part) : AllSound node

theorem AllSound.sound {node other : Node} (h : node.AllSound) (hother : Relation.ReflTransGen Holds node other) :
    other.Sound := by
  induction hother using Relation.ReflTransGen.head_induction_on with
  | refl =>
    cases h with
    | intro here => exact here
  | head hholds _ ih =>
    cases h with
    | intro here below => exact ih (below _ hholds)

/-- Sound nodes only, and not the name of a method. -/
structure Plain (node : Node) : Prop where
  all : node.AllSound
  method : node.isMethod = false

variable {node : Node}

theorem formed_of_fits (hfits : node.Fits) (hblocks : node.blocks = []) (hparameters : node.parameters = []) :
    node.Formed where
  fits := hfits
  returns body hbody := by rw [hblocks] at hbody; cases hbody
  varargs := by rw [hparameters]; exact nofun

theorem allSound_of_parts (hformed : node.Formed) (hplain : ∀ part ∈ node.plainParts, part.Plain)
    (hparts : ∀ part ∈ node.parts, part ∈ node.plainParts ∨ part.AllSound)
    (hname : ∀ part ∈ node.functionName?, part.AllSound) : node.AllSound := by
  refine .intro { hformed with methods := fun part hpart => (hplain part hpart).method } fun part hholds => ?_
  obtain hpart | hpart := hholds
  · exact (hparts part hpart).elim (fun h => (hplain part h).all) id
  · exact hname part hpart

end Node

abbrev Expr.AllSound (e : Expr) : Prop := (Node.expression e).AllSound

abbrev Expr.Plain (e : Expr) : Prop := (Node.expression e).Plain

abbrev Stmt.Plain (s : Stmt) : Prop := (Node.statement s).Plain

namespace Expr

variable {e base : Expr} {rest : List Node}

theorem allSound_of_parts (hformed : (Node.expression e).Formed) (hsame : (Node.expression e).plainParts = e.parts)
    (h : ∀ part ∈ e.parts, part.Plain) : e.AllSound :=
  Node.allSound_of_parts hformed (hsame ▸ h) (fun _ hpart => .inl (hsame ▸ hpart)) nofun

theorem plain_of_parts (hformed : (Node.expression e).Formed) (hmethod : e.isMethod = false)
    (hsame : (Node.expression e).plainParts = e.parts) (h : ∀ part ∈ e.parts, part.Plain) : e.Plain :=
  ⟨allSound_of_parts hformed hsame h, hmethod⟩

theorem plain_of_base (hformed : (Node.expression e).Formed) (hmethod : e.isMethod = false)
    (hparts : e.parts = .expression base :: rest) (hrest : (Node.expression e).plainParts = rest) (hbase : base.AllSound)
    (h : ∀ part ∈ rest, part.Plain) : e.Plain := by
  refine ⟨Node.allSound_of_parts hformed (hrest ▸ h) (fun part hpart => ?_) nofun, hmethod⟩
  have hmem : part ∈ Node.expression base :: rest := hparts ▸ (hpart : part ∈ e.parts)
  obtain rfl | hpart := mem_cons.mp hmem
  · exact .inr hbase
  · exact .inl (hrest ▸ hpart)

end Expr

variable {s : Stmt}

theorem Stmt.plain_of_parts (hformed : (Node.statement s).Formed) (h : ∀ part ∈ s.parts, part.Plain)
    (hname : ∀ part ∈ (Node.statement s).functionName?, part.AllSound) : s.Plain :=
  ⟨Node.allSound_of_parts hformed h (fun _ => .inl) hname, rfl⟩

/-! ### Phrases -/

/-- A block of sound statements in which a return is the last one. -/
structure PlainBlock (body : Block) : Prop where
  statements : ∀ part ∈ body.map Node.statement, part.Plain
  returns : OnlyLast Stmt.isReturn body

/-- A clause with sound parts. -/
structure PlainClause (cl : Clause) : Prop where
  body : PlainBlock cl.body
  parts : ∀ part ∈ cl.parts, part.Plain

/-- What is sound about the trees of a phrase. A name of a function is plain up to where a name behind a colon makes it a
method. -/
def Phrase.Shaped : Phrase → Prop
  | .expression _ e | .operators _ _ e | .operand _ e | .chain _ _ e => e.Plain
  | .callee _ _ e => e.AllSound
  | .dottedName e => e.Plain ∧ e.dottedName?.isSome = true
  | .functionName e => e.AllSound ∧ e.dottedName?.isSome = true
  | .values _ es | .moreValues _ es => ∀ part ∈ es.map Node.expression, part.Plain
  | .targets _ _ es => es ≠ [] ∧ ∀ e ∈ es, e.Plain ∧ e.isTarget = true
  | .field _ f => ∀ part ∈ f.parts, part.Plain
  | .fields _ fs => ∀ part ∈ fs.flatMap Field.parts, part.Plain
  | .table _ tbl => ∀ part ∈ tbl.parts, part.Plain
  | .parameters ps => OnlyLast Parameter.isVararg ps
  | .function _ _ ps body => OnlyLast Parameter.isVararg ps ∧ PlainBlock body
  | .block _ body | .scopedBlock _ _ body => PlainBlock body
  | .text _ body => ∀ part ∈ body.map Node.statement, part.Plain
  | .elseIfs _ cs => ∀ cl ∈ cs, PlainClause cl ∧ cl.isElseIf = true
  | .elseClause _ cs | .oneLineElse _ cs => cs.length ≤ 1 ∧ ∀ cl ∈ cs, PlainClause cl ∧ cl.isOtherwise = true
  | .proper _ stmt | .statement _ stmt => stmt.Plain
  | .moreNames _ | .moreLocals _ => True

section Nodes

variable {base : Expr} {span : Span} {clauses last : List Clause}

theorem plain_name (id : Identifier) : (Expr.name id).Plain :=
  Expr.plain_of_parts (Node.formed_of_fits trivial rfl rfl) rfl rfl nofun

theorem allSound_member (hbase : base.Plain) (indexer : Indexer) (key : Identifier) (span : Span) :
    (Expr.member base indexer key span).AllSound :=
  Expr.allSound_of_parts (Node.formed_of_fits trivial rfl rfl) rfl (forall_mem_singleton.mpr hbase)

theorem formed_of_blocks (hfits : (Node.statement s).Fits) (hparameters : (Node.statement s).parameters = [])
    (h : ∀ body ∈ (Node.statement s).blocks, PlainBlock body) : (Node.statement s).Formed where
  fits := hfits
  returns body hbody := (h body hbody).returns
  varargs := by rw [hparameters]; exact nofun

theorem plain_of_no_parts (hformed : (Node.statement s).Formed) (hparts : s.parts = [])
    (hname : (Node.statement s).functionName? = none) : s.Plain := by
  refine Stmt.plain_of_parts hformed (fun part hpart => ?_) fun part hpart => ?_
  · rw [hparts] at hpart
    cases hpart
  · rw [hname] at hpart
    cases hpart

theorem plain_otherwise {body : Block} (h : PlainBlock body) :
    [Clause.otherwise body span].length ≤ 1 ∧ ∀ cl ∈ [Clause.otherwise body span], PlainClause cl ∧ cl.isOtherwise = true :=
  ⟨le_rfl, forall_mem_singleton.mpr ⟨⟨h, h.statements⟩, rfl⟩⟩

theorem plain_branch {oneLine : Bool} {condition : Expr} {body : Block} {others : List Clause} {span' : Span}
    (hcondition : condition.Plain) (hbody : PlainBlock body)
    (hothers : ∀ cl ∈ others, (PlainClause cl ∧ cl.isElseIf = true) ∧ oneLine = false)
    (hlast : last.length ≤ 1 ∧ ∀ cl ∈ last, PlainClause cl ∧ cl.isOtherwise = true) :
    (Stmt.branch (.ifThen condition body span :: others ++ last) oneLine span').Plain := by
  have hordered : Clause.Ordered oneLine (.ifThen condition body span :: others ++ last) :=
    ⟨_, others, last, rfl, rfl, fun cl hcl => ⟨(hothers cl hcl).1.2, (hothers cl hcl).2⟩, hlast.1,
      fun cl hcl => (hlast.2 cl hcl).2⟩
  have hclauses : ∀ cl ∈ Clause.ifThen condition body span :: others ++ last, PlainClause cl := by
    refine forall_mem_append.mpr ⟨forall_mem_cons.mpr ⟨⟨hbody, ?_⟩, ?_⟩, fun cl hcl => (hlast.2 cl hcl).1⟩
    · exact forall_mem_cons.mpr ⟨hcondition, hbody.statements⟩
    · exact fun cl hcl => (hothers cl hcl).1.1
  have hblocks := forall_mem_map.mpr fun cl hcl => (hclauses cl hcl).body
  refine Stmt.plain_of_parts (formed_of_blocks hordered rfl hblocks) (fun part hpart => ?_) nofun
  obtain ⟨cl, hcl, hin⟩ := mem_flatMap.mp hpart
  exact (hclauses cl hcl).parts part hin

theorem plain_function {name : Expr} {isLocal : Bool} {f : FunctionBody} (hname : name.AllSound)
    (hdotted : name.dottedName?.isSome = true) (hlocal : isLocal = true → name.asName?.isSome = true)
    (hvarargs : OnlyLast Parameter.isVararg f.parameters) (hbody : PlainBlock f.body) :
    (Stmt.function name isLocal f).Plain := by
  refine Stmt.plain_of_parts ⟨⟨hdotted, hlocal⟩, forall_mem_singleton.mpr hbody.returns, hvarargs⟩ hbody.statements
    fun part hpart => ?_
  cases hpart
  exact hname

theorem plain_callStatement {e : Expr} (he : e.Plain) (hcall : e.isCall = true) : (Stmt.call e span).Plain :=
  Stmt.plain_of_parts (Node.formed_of_fits hcall rfl rfl) (forall_mem_singleton.mpr he) nofun

end Nodes

theorem Derives.shaped {c : Settings} {s t : Session} {phrase : Phrase} (h : Derives c s phrase t) : phrase.Shaped := by
  induction h with
  | expression _ ih | operand _ ih | chain _ ih | parenthesized _ _ _ ih | table _ _ _ _ _ ih | emptyStatement _ _ _ ih
  | givenUp _ _ ih | scopedBlock _ _ _ _ _ ih | proper _ _ ih => exact ih
  | @dyadic _ _ op _ _ _ _ _ _ _ _ _ _ ihe ihr =>
    cases op <;> exact Expr.plain_of_parts (Node.formed_of_fits trivial rfl rfl) rfl rfl
      (forall_mem_cons.mpr ⟨ihe, forall_mem_singleton.mpr ihr⟩)
  | literal he =>
    unfold Grammar.literal? at he
    split at he <;> cases he <;> exact Expr.plain_of_parts (Node.formed_of_fits trivial rfl rfl) rfl rfl nofun
  | functionValue _ _ _ ih =>
    obtain ⟨hvarargs, hbody⟩ := ih
    exact Expr.plain_of_parts ⟨trivial, forall_mem_singleton.mpr hbody.returns, hvarargs⟩ rfl rfl hbody.statements
  | tableValue _ ih => exact Expr.plain_of_parts (Node.formed_of_fits trivial rfl rfl) rfl rfl ih
  | unary _ _ _ ih =>
    exact Expr.plain_of_parts (Node.formed_of_fits trivial rfl rfl) rfl rfl (forall_mem_singleton.mpr ih)
  | name => exact plain_name _
  | index _ _ _ _ ihbase ihkey =>
    exact Expr.plain_of_parts (Node.formed_of_fits trivial rfl rfl) rfl rfl
      (forall_mem_cons.mpr ⟨ihbase, forall_mem_singleton.mpr ihkey⟩)
  | member _ _ _ ih => exact ⟨allSound_member ih .dot _ _, rfl⟩
  | plainCallee _ ih => exact ih.all
  | method _ _ _ ih => exact allSound_member ih .colon _ _
  | call _ _ _ _ ihbase ih | tableCall _ _ ihbase ih =>
    exact Expr.plain_of_base (Node.formed_of_fits trivial rfl rfl) rfl rfl rfl ihbase ih
  | stringCall _ _ _ ih =>
    refine Expr.plain_of_base (Node.formed_of_fits rfl rfl rfl) rfl rfl rfl ih (forall_mem_singleton.mpr ?_)
    exact Expr.plain_of_parts (Node.formed_of_fits trivial rfl rfl) rfl rfl nofun
  | noMoreValues | noValues | noFields | noElseIfs | noParameters => exact nofun
  | moreValues _ _ _ ihe ihes | values _ _ ihe ihes => exact forall_mem_cons.mpr ⟨ihe, ihes⟩
  | target _ htarget ih => exact ⟨cons_ne_nil _ _, forall_mem_singleton.mpr ⟨ih, htarget⟩⟩
  | moreTargets _ htarget _ _ ihe ihes =>
    exact ⟨cons_ne_nil _ _, forall_mem_cons.mpr ⟨⟨ihe, htarget⟩, ihes.2⟩⟩
  | keyedField _ _ _ _ _ _ _ ihkey ihvalue => exact forall_mem_cons.mpr ⟨ihkey, forall_mem_singleton.mpr ihvalue⟩
  | namedField _ _ _ _ _ _ ih | positionalField _ _ _ ih => exact forall_mem_singleton.mpr ih
  | fields _ _ _ _ ihf ihfs => exact forall_mem_append.mpr ⟨ihf, ihfs⟩
  | lastParameter | varargParameter => exact nofun
  | parameters _ _ _ _ ih => exact ih.cons nofun
  | function _ _ _ _ _ _ _ _ _ _ _ _ ihps ihbody => exact ⟨ihps, ihbody⟩
  | dottedName => exact ⟨plain_name _, rfl⟩
  | dottedMember _ _ _ ih =>
    exact ⟨⟨allSound_member ih.1 .dot _ _, rfl⟩, by simpa [Expr.dottedName?] using ih.2⟩
  | functionName _ ih => exact ⟨ih.1.all, ih.2⟩
  | methodName _ _ _ ih => exact ⟨allSound_member ih.1 .colon _ _, by simpa [Expr.dottedName?] using ih.2⟩
  | endBlock => exact ⟨nofun, nofun⟩
  | block _ _ _ hreturn _ ihstmt ihbody =>
    exact ⟨forall_mem_cons.mpr ⟨ihstmt, ihbody.statements⟩, ihbody.returns.cons hreturn⟩
  | text _ ih => exact ih.statements
  | moreText _ _ _ ihbody ihmore =>
    rw [Phrase.Shaped, map_append]
    exact forall_mem_append.mpr ⟨ihbody.statements, ihmore⟩
  | elseIfs _ _ _ _ _ _ ihcondition ihbody ihcs =>
    refine forall_mem_cons.mpr ⟨⟨⟨ihbody, ?_⟩, rfl⟩, ihcs⟩
    exact forall_mem_cons.mpr ⟨ihcondition, ihbody.statements⟩
  | noElse | noOneLineElse => exact ⟨Nat.zero_le 1, nofun⟩
  | elseClause _ _ _ ih | oneLineElse _ _ _ _ ih | blockElse _ _ _ _ _ _ ih => exact plain_otherwise ih
  | breakLoop | goto | label | inclusion => exact plain_of_no_parts (Node.formed_of_fits trivial rfl rfl) rfl rfl
  | ret _ _ _ _ ih | declare _ _ _ _ _ _ _ _ _ ih => exact Stmt.plain_of_parts (Node.formed_of_fits trivial rfl rfl) ih nofun
  | doBlock _ _ _ _ ih =>
    exact Stmt.plain_of_parts (formed_of_blocks trivial rfl (forall_mem_singleton.mpr ih)) ih.statements nofun
  | whileLoop _ _ _ _ _ _ ihcondition ihbody | repeatLoop _ _ _ _ _ _ _ _ _ ihbody ihcondition =>
    exact Stmt.plain_of_parts (formed_of_blocks trivial rfl (forall_mem_singleton.mpr ihbody))
      (forall_mem_cons.mpr ⟨ihcondition, ihbody.statements⟩) nofun
  | forNumeric _ _ _ _ _ _ _ _ _ _ _ _ _ _ _ _ ihfirst ihlast ihstep ihbody =>
    refine Stmt.plain_of_parts (formed_of_blocks trivial rfl (forall_mem_singleton.mpr ihbody)) ?_ nofun
    refine forall_mem_append.mpr ⟨?_, ihbody.statements⟩
    exact forall_mem_cons.mpr ⟨ihfirst, forall_mem_cons.mpr ⟨ihlast, ihstep⟩⟩
  | forGeneric _ _ _ _ _ _ _ _ _ _ _ _ _ _ _ ihiterators ihbody =>
    exact Stmt.plain_of_parts (formed_of_blocks trivial rfl (forall_mem_singleton.mpr ihbody))
      (forall_mem_append.mpr ⟨ihiterators, ihbody.statements⟩) nofun
  | noMoreNames | moreNames | noMoreLocals | moreLocals => trivial
  | oneLineIf _ _ _ _ _ _ _ _ _ _ ihcondition ihbody ihlast =>
    exact plain_branch ihcondition ihbody (forall_mem_nil _) ihlast
  | blockIf _ _ _ _ _ _ _ _ _ _ ihcondition ihbody ihothers ihlast =>
    exact plain_branch ihcondition ihbody (fun cl hcl => ⟨ihothers cl hcl, rfl⟩) ihlast
  | localFunction _ _ _ _ _ _ ih => exact plain_function (plain_name _).all rfl (fun _ => rfl) ih.1 ih.2
  | functionStatement _ _ _ _ ihname ihf => exact plain_function ihname.1 ihname.2 nofun ihf.1 ihf.2
  | print _ _ _ _ _ ih =>
    refine plain_callStatement ?_ rfl
    exact Expr.plain_of_base (Node.formed_of_fits trivial rfl rfl) rfl rfl rfl (plain_name _).all ih
  | callStatement _ _ hcall _ _ ih => exact plain_callStatement ih hcall
  | assignment _ _ _ _ _ hvalued _ _ ihtargets ihvalues =>
    obtain ⟨hne, htargets⟩ := ihtargets
    refine Stmt.plain_of_parts (Node.formed_of_fits ⟨hne, hvalued, fun e he => ?_⟩ rfl rfl) ?_ nofun
    · exact ⟨(htargets e he).2, (htargets e he).1.method⟩
    · rw [Stmt.parts, map_append]
      exact forall_mem_append.mpr ⟨forall_mem_map.mpr fun e he => (htargets e he).1, ihvalues⟩

namespace Program

open Parse

/-- **Every tree is sound.** Whatever the text, its includes and its errors, each statement and expression of the program
that is read has clauses in their order, returns at the end of their blocks, targets that can be assigned to, calls for
statements, names of methods only where they are called or defined, names of functions made of names, and `...` as a last
parameter. -/
theorem sound_of_mem_parse (options : Options) (source name : String) (s : Stmt) (node : Node)
    (hs : s ∈ (parse options source name).body) (hnode : Relation.ReflTransGen Node.Holds (.statement s) node) :
    node.Sound := by
  obtain ⟨body, last, hrun⟩ := exists_run_eq_ok options source name
  rw [parse, hrun] at hs
  obtain ⟨_, _, _, _, -, -, hbody, -⟩ := derives_wholeText hrun
  exact (hbody.shaped _ (List.mem_map_of_mem hs)).all.sound hnode

/-- A method with a faulty line, which is dropped. -/
def faultyMethod : String := "function a.b:c(d,...) e=)\n f() return end"

def isFaultyMethod : Block → Bool
  | [.function name false f] => name.isMethod && f.body.length == 2
  | _ => false

theorem sound_of_mem_parse_method : (parse {} faultyMethod "main.lua").errors ≠ [] ∧
    ∃ name f, .function name false f ∈ (parse {} faultyMethod "main.lua").body ∧
      Relation.ReflTransGen Node.Holds (.statement (.function name false f)) (.expression name) ∧
      name.isMethod = true ∧ f.body.length = 2 ∧
      (Node.statement (.function name false f)).Sound ∧ (Node.expression name).Sound := by
  have hshape : isFaultyMethod (parse {} faultyMethod "main.lua").body = true := by decide +kernel
  unfold isFaultyMethod at hshape
  split at hshape
  next name f hbody =>
    have hmem : .function name false f ∈ (parse {} faultyMethod "main.lua").body := hbody ▸ List.mem_singleton_self _
    have hholds : (Node.statement (.function name false f)).Holds (.expression name) := .inr rfl
    rw [Bool.and_eq_true, beq_iff_eq] at hshape
    exact ⟨by decide +kernel, name, f, hmem, .single hholds, hshape.1, hshape.2,
      sound_of_mem_parse {} faultyMethod "main.lua" _ _ hmem .refl,
      sound_of_mem_parse {} faultyMethod "main.lua" _ _ hmem (.single hholds)⟩
  next => cases hshape

end Program

end CartLua
