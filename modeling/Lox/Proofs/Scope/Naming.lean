import Lox.Proofs.Grammar.Spelling
import Lox.Proofs.Scope.Respelling
import Mathlib.Data.List.Nodup

/-! The names in a program and the local declarations that they belong to.

A naming is an identifier where it stands. That of a local variable or of a parameter belongs to its
own declaration, and an occurrence belongs to the declaration that it is bound to. Names of
functions, classes, properties and global variables belong to nothing. Where the tokens of a text
all differ, as they do when each has its number for a line, no two namings have the same token. -/

namespace Lox

structure Naming where
  name : Token
  declaration : Option Token
  deriving DecidableEq, Repr

/-- The declaration of the nearest scope that has one of a name. -/
def nearestNamed? (x : String) (opens : List OpenScope) : Option Token :=
  match nearest? x opens with
  | some (_, .named t) => some t
  | _ => none

/-- What an occurrence of a name is bound to, if that is a declaration in a scope. An initializer can
assign to the local variable that it is for. -/
def Place.declaration? (Γ : Place) (x : String) : Option Token :=
  match Γ.underway with
  | some ⟨t, false⟩ =>
    if Γ.opens ≠ [] ∧ t.lexeme = x then some t else nearestNamed? x Γ.opens
  | _ => nearestNamed? x Γ.opens

def Place.naming (Γ : Place) (t : Token) : Naming := ⟨t, Γ.declaration? t.lexeme⟩

/-- The name of something that no scope binds, or that is not a variable. -/
def Naming.free (t : Token) : Naming := ⟨t, none⟩

/-- The name of a variable where it is declared. -/
def Place.declared (Γ : Place) (t : Token) : Naming := ⟨t, if Γ.opens = [] then none else some t⟩

mutual

def Expr.names (Γ : Place) : Expr → List Naming
  | .constant _ => []
  | .group inner => inner.names Γ
  | .unary _ operand => operand.names Γ
  | .binary left _ right | .logical left _ right => left.names Γ ++ right.names Γ
  | .variable target => [Γ.naming target.name]
  | .assign target value => Γ.naming target.name :: value.names Γ
  | .call callee _ arguments => callee.names Γ ++ Expr.namesOfAll Γ arguments
  | .get object name => object.names Γ ++ [.free name]
  | .set object name value => object.names Γ ++ .free name :: value.names Γ
  | .receiver keyword => [.free keyword.name]
  | .inherited keyword method => [.free keyword.name, .free method]

def Expr.namesOfAll (Γ : Place) : List Expr → List Naming
  | [] => []
  | e :: rest => e.names Γ ++ Expr.namesOfAll Γ rest

end

def Expr.namesOf? (Γ : Place) : Option Expr → List Naming
  | none => []
  | some e => e.names Γ

mutual

def Stmt.names (Γ : Place) : Stmt → List Naming
  | .expression value | .print value => value.names Γ
  | .varDecl name initializer =>
    Γ.declared name :: Expr.namesOf? (Γ.declaring name false) initializer
  | .block body => Stmt.namesOfAll Γ.inBlock body
  | .ifThen condition consequent => condition.names Γ ++ consequent.names Γ
  | .ifElse condition consequent alternative =>
    condition.names Γ ++ consequent.names Γ ++ alternative.names Γ
  | .loop condition body increment =>
    condition.names Γ ++ body.names Γ.inLoop ++ Expr.namesOf? Γ increment
  | .function decl => decl.names .function (Γ.define decl.name)
  | .classDecl name superclass methods =>
    .free name :: superclass.toList.map (fun r => (Γ.declaring name true).naming r.name)
      ++ FunctionDecl.namesOfMethods ((Γ.define name).inClass superclass) methods
  | .returning _ value => Expr.namesOf? Γ value
  | .breaking _ | .continuing _ => []

def Stmt.namesOfAll (Γ : Place) : List Stmt → List Naming
  | [] => []
  | s :: rest => s.names Γ ++ Stmt.namesOfAll (Γ.after s) rest

def FunctionDecl.names (kind : FunctionContext) (Γ : Place) : FunctionDecl → List Naming
  | .mk name params body =>
    .free name :: params.map (fun p => ⟨p, some p⟩)
      ++ Stmt.namesOfAll (Γ.inBody kind (.mk name params body)) body

def FunctionDecl.namesOfMethods (Γ : Place) : List FunctionDecl → List Naming
  | [] => []
  | f :: rest => f.names f.methodContext Γ ++ FunctionDecl.namesOfMethods Γ rest

end

/-- All names of a program, in the order in which they stand in a text. -/
def namings (program : List Stmt) : List Naming := Stmt.namesOfAll .top program

def Node.names (Γ : Place) : Node → List Naming
  | .expr e => e.names Γ
  | .stmt s => s.names Γ
  | .body rest => Stmt.namesOfAll Γ rest
  | .callable kind f => f.names kind Γ

section Lists

variable {Γ : Place}

theorem Expr.names_subset_namesOfAll {es : List Expr} {e : Expr} (he : e ∈ es) :
    e.names Γ ⊆ Expr.namesOfAll Γ es := subset_of_collected (fun _ _ => rfl) he

theorem FunctionDecl.names_subset_namesOfMethods {fs : List FunctionDecl} {f : FunctionDecl}
    (hf : f ∈ fs) : f.names f.methodContext Γ ⊆ FunctionDecl.namesOfMethods Γ fs :=
  subset_of_collected (f := fun f => f.names f.methodContext Γ) (fun _ _ => rfl) hf

theorem Expr.namesOfAll_append (Γ : Place) (es es' : List Expr) :
    Expr.namesOfAll Γ (es ++ es') = Expr.namesOfAll Γ es ++ Expr.namesOfAll Γ es' := by
  induction es with
  | nil => rfl
  | cons e rest ih => simp only [List.cons_append, Expr.namesOfAll, ih, List.append_assoc]

theorem Stmt.namesOfAll_append (ss ss' : List Stmt) : ∀ Γ : Place,
    Stmt.namesOfAll Γ (ss ++ ss') =
      Stmt.namesOfAll Γ ss ++ Stmt.namesOfAll (ss.foldl Place.after Γ) ss' := by
  induction ss with
  | nil => exact fun _ => rfl
  | cons s rest ih =>
    intro Γ
    simp only [List.cons_append, Stmt.namesOfAll, ih, List.append_assoc, List.foldl_cons]

theorem FunctionDecl.namesOfMethods_append (Γ : Place) (fs fs' : List FunctionDecl) :
    FunctionDecl.namesOfMethods Γ (fs ++ fs') =
      FunctionDecl.namesOfMethods Γ fs ++ FunctionDecl.namesOfMethods Γ fs' := by
  induction fs with
  | nil => rfl
  | cons f rest ih =>
    simp only [List.cons_append, FunctionDecl.namesOfMethods, ih, List.append_assoc]

end Lists

/-- The names of a part are names of the whole. -/
theorem Node.Part.names {Γ Δ : Place} {n m : Node} (h : Node.Part Γ n Δ m) :
    m.names Δ ⊆ n.names Γ := by
  cases h <;> simp only [Node.names]
  case argument ha =>
    exact List.subset_append_of_subset_right _ (Expr.names_subset_namesOfAll ha)
  case method hf =>
    exact List.subset_append_of_subset_right _ (FunctionDecl.names_subset_namesOfMethods hf)
  case inside kind f =>
    cases f
    exact List.subset_append_right _ _
  all_goals
    intro x hx
    simp_all [Expr.names, Stmt.names, Stmt.namesOfAll, Expr.namesOf?]

theorem Meets.names {program : List Stmt} {Γ : Place} {n : Node} (h : Meets program Γ n) :
    n.names Γ ⊆ namings program := by
  induction h with
  | top => exact List.Subset.refl _
  | part _ hp ih => exact List.Subset.trans hp.names ih

/-- The tokens of a text that are names. -/
def namedTokens (ns : List Naming) : List Token := ns.map (·.name)

section Spelling

open Grammar

@[simp] theorem namedTokens_nil : namedTokens [] = [] := rfl

@[simp] theorem namedTokens_cons (n : Naming) (ns : List Naming) :
    namedTokens (n :: ns) = n.name :: namedTokens ns := rfl

@[simp] theorem namedTokens_append (ns ns' : List Naming) :
    namedTokens (ns ++ ns') = namedTokens ns ++ namedTokens ns' := List.map_append

@[simp] theorem name_naming (Γ : Place) (t : Token) : (Γ.naming t).name = t := rfl

@[simp] theorem name_free (t : Token) : (Naming.free t).name = t := rfl

@[simp] theorem name_declared (Γ : Place) (t : Token) : (Γ.declared t).name = t := rfl

def Grammar.ExprPhrase.names (Γ : Place) : ExprPhrase → List Naming
  | .expr _ e => e.names Γ
  | .items es => Expr.namesOfAll Γ es

def Grammar.Phrase.names (kind : FunctionContext) (Γ : Place) : Phrase → List Naming
  | .statement _ s | .declaration s => s.names Γ
  | .declarations ss => Stmt.namesOfAll Γ ss
  | .callable f => f.names kind Γ
  | .methods fs => FunctionDecl.namesOfMethods Γ fs

theorem names_joined (Γ : Place) (k : Nat) (l r : Expr) (t : Token) :
    (joined k l t r).names Γ = l.names Γ ++ r.names Γ := by
  unfold joined
  split <;> rfl

/-- A phrase has no token for a name more often than it has the token. -/
theorem Grammar.SpellsExpr.count_names {p : ExprPhrase} {ts us : List Token}
    (h : SpellsExpr p ts us) (Γ : Place) (a : Token) :
    (namedTokens (p.names Γ)).count a + us.count a ≤ ts.count a := by
  induction h with
  | looser _ _ ih => exact ih
  | join _ _ _ ih ih' =>
    simp only [ExprPhrase.names, names_joined, namedTokens_append, List.count_append,
      List.count_cons] at ih ih' ⊢
    omega
  | more _ _ _ ih ih' =>
    simp only [ExprPhrase.names, Expr.namesOfAll_append, Expr.namesOfAll, List.append_nil,
      namedTokens_append, List.count_append, List.count_cons] at ih ih' ⊢
    omega
  | one _ ih => simpa [ExprPhrase.names, Expr.namesOfAll] using ih
  | set _ _ _ _ _ ih ih' | callWith _ _ _ _ _ ih ih' =>
    simp only [ExprPhrase.names, Expr.names, namedTokens_append, namedTokens_cons, name_free,
      List.count_append, List.count_cons] at ih ih' ⊢
    omega
  | assign _ _ _ ih | unary _ _ ih | call _ _ _ ih | get _ _ _ ih | group _ _ _ ih =>
    simp only [ExprPhrase.names, Expr.names, Expr.namesOfAll, namedTokens_append,
      namedTokens_cons, namedTokens_nil, name_free, name_naming, List.append_nil,
      List.count_append, List.count_cons, List.count_nil] at ih ⊢
    omega
  | constant | inherited | receiver | occurrence =>
    simp only [ExprPhrase.names, Expr.names, namedTokens_cons, namedTokens_nil, name_free,
      name_naming, List.count_cons, List.count_nil]
    omega

theorem count_namesOf? {e : Option Expr} {ts us : List Token} (h : SpellsOption e ts us)
    (Γ : Place) (a : Token) :
    (namedTokens (Expr.namesOf? Γ e)).count a + us.count a ≤ ts.count a := by
  cases e with
  | none =>
    obtain rfl : ts = us := h
    simp [Expr.namesOf?]
  | some e => exact SpellsExpr.count_names h Γ a

theorem Grammar.SpellsVariable.count_names {s : Stmt} {ts us : List Token}
    (h : SpellsVariable s ts us) (Γ : Place) (a : Token) :
    (namedTokens (s.names Γ)).count a + us.count a ≤ ts.count a := by
  cases h with
  | bare =>
    simp only [Stmt.names, Expr.namesOf?, namedTokens_cons, namedTokens_nil, name_declared,
      List.count_cons, List.count_nil]
    omega
  | @initialized name _ _ _ _ _ _ _ he _ =>
    have hvalue := he.count_names (Γ.declaring name false) a
    simp only [ExprPhrase.names, Stmt.names, Expr.namesOf?, namedTokens_cons, name_declared,
      List.count_cons] at hvalue ⊢
    omega

theorem count_names_initializer {s : Option Stmt} {ts us : List Token}
    (h : SpellsInitializer s ts us) (Γ : Place) (a : Token) :
    (namedTokens (s.elim [] (Stmt.names Γ))).count a + us.count a ≤ ts.count a := by
  cases h with
  | none => simp [List.count_cons]
  | varDecl _ hs =>
    have hvariable := hs.count_names Γ a
    simp only [Option.elim_some, List.count_cons]
    omega
  | expression he _ =>
    have hvalue := he.count_names Γ a
    simp only [ExprPhrase.names, Option.elim_some, Stmt.names, List.count_cons] at hvalue ⊢
    omega

theorem count_parameters {params ts us : List Token} (h : SpellsParameters params ts us)
    (a : Token) : params.count a + us.count a ≤ ts.count a := by
  rcases h with ⟨rfl, rfl⟩ | ⟨h, -⟩
  · simp
  · induction h with
    | one h =>
      obtain ⟨-, rfl⟩ := h
      simp only [List.count_cons, List.count_nil]
      omega
    | more _ _ h ih =>
      obtain ⟨-, rfl⟩ := h
      simp only [List.count_append, List.count_cons, List.count_nil] at ih ⊢
      omega

theorem count_superclass {r : Option Reference} {ts us : List Token}
    (h : SpellsSuperclass r ts us) (a : Token) :
    (r.toList.map (·.name)).count a + us.count a ≤ ts.count a := by
  cases r with
  | none =>
    obtain rfl : ts = us := h
    simp
  | some r =>
    obtain ⟨less, -, -, rfl⟩ := h
    simp only [Option.toList_some, List.map_cons, List.map_nil, List.count_cons, List.count_nil]
    omega

theorem names_forLoop (initializer : Option Stmt) (condition increment : Option Expr)
    (body : Stmt) (Γ : Place) : ∃ Δ Δ' : Place,
    namedTokens ((forLoop initializer condition increment body).names Γ) =
      namedTokens (initializer.elim [] (Stmt.names Δ)) ++
        (namedTokens (Expr.namesOf? Δ' condition) ++ (namedTokens (body.names Δ'.inLoop) ++
          namedTokens (Expr.namesOf? Δ' increment))) := by
  have hcondition (Δ : Place) : (condition.getD (.constant (.bool true))).names Δ =
      Expr.namesOf? Δ condition := by
    cases condition <;> rfl
  cases initializer with
  | none => exact ⟨Γ, Γ, by simp [forLoop, Stmt.names, hcondition]⟩
  | some first =>
    exact ⟨Γ.inBlock, Γ.inBlock.after first,
      by simp [forLoop, Stmt.names, Stmt.namesOfAll, hcondition]⟩

theorem Grammar.Spells.count_names {p : Phrase} {ts us : List Token} (h : Spells p ts us)
    (a : Token) : ∀ (kind : FunctionContext) (Γ : Place),
    (namedTokens (p.names kind Γ)).count a + us.count a ≤ ts.count a := by
  induction h with
  | expression he _ | print _ he _ =>
    intro kind Γ
    have hvalue := he.count_names Γ a
    simp only [ExprPhrase.names, Phrase.names, Stmt.names, List.count_cons] at hvalue ⊢
    omega
  | returning _ he _ =>
    intro kind Γ
    have hvalue := count_namesOf? he Γ a
    simp only [Phrase.names, Stmt.names, List.count_cons] at hvalue ⊢
    omega
  | breaking | continuing =>
    intro kind Γ
    simp only [Phrase.names, Stmt.names, namedTokens_nil, List.count_cons, List.count_nil]
    omega
  | block _ _ _ ih =>
    intro kind Γ
    have hbody := ih kind Γ.inBlock
    simp only [Phrase.names, Stmt.names, List.count_cons] at hbody ⊢
    omega
  | ifThen _ _ he _ _ ih =>
    intro kind Γ
    have hcondition := he.count_names Γ a
    have hbranch := ih kind Γ
    simp only [ExprPhrase.names, Phrase.names, Stmt.names, namedTokens_append, List.count_append,
      List.count_cons] at hcondition hbranch ⊢
    omega
  | ifElse _ _ he _ _ _ _ ih ih' =>
    intro kind Γ
    have hcondition := he.count_names Γ a
    have hbranch := ih kind Γ
    have helse := ih' kind Γ
    simp only [ExprPhrase.names, Phrase.names, Stmt.names, namedTokens_append, List.count_append,
      List.count_cons] at hcondition hbranch helse ⊢
    omega
  | whileLoop _ _ he _ _ ih =>
    intro kind Γ
    have hcondition := he.count_names Γ a
    have hbody := ih kind Γ.inLoop
    simp only [ExprPhrase.names, Phrase.names, Stmt.names, Expr.namesOf?, namedTokens_append,
      List.append_nil, List.count_append, List.count_cons] at hcondition hbody ⊢
    omega
  | @forLoop _ _ _ _ initializer condition increment body _ _ _ _ _ _ _ _ hi hc _ hn _ _ ih =>
    intro kind Γ
    obtain ⟨Δ, Δ', hnames⟩ := names_forLoop initializer condition increment body Γ
    have hfirst := count_names_initializer hi Δ a
    have hcondition := count_namesOf? hc Δ' a
    have hincrement := count_namesOf? hn Δ' a
    have hbody := ih kind Δ'.inLoop
    simp only [Phrase.names, hnames, List.count_append, List.count_cons]
      at hfirst hcondition hincrement hbody ⊢
    omega
  | varDecl _ hs =>
    intro kind Γ
    have hvariable := hs.count_names Γ a
    simp only [Phrase.names, List.count_cons]
    omega
  | @function _ f _ _ _ _ ih =>
    intro kind Γ
    have hfunction := ih .function (Γ.define f.name)
    simp only [Phrase.names, Stmt.names, List.count_cons] at hfunction ⊢
    omega
  | @classDecl _ name _ _ superclass methods _ _ _ _ _ hr _ _ _ ih =>
    intro kind Γ
    have hsuperclass := count_superclass hr a
    have hmethods := ih kind ((Γ.define name).inClass superclass)
    have hmap : namedTokens (superclass.toList.map fun r =>
        (Γ.declaring name true).naming r.name) = superclass.toList.map (·.name) := by
      cases superclass <;> rfl
    simp only [Phrase.names, Stmt.names, namedTokens_cons, namedTokens_append, hmap, name_free,
      List.cons_append, List.count_append, List.count_cons] at hsuperclass hmethods ⊢
    omega
  | statement _ ih => exact ih
  | none | noMethods =>
    intro kind Γ
    simp [Phrase.names, Stmt.namesOfAll, FunctionDecl.namesOfMethods]
  | @more ss s _ _ _ _ _ ih ih' =>
    intro kind Γ
    have hrest := ih kind Γ
    have hlast := ih' kind (ss.foldl Place.after Γ)
    simp only [Phrase.names, Stmt.namesOfAll_append, Stmt.namesOfAll, List.append_nil,
      namedTokens_append, List.count_append] at hrest hlast ⊢
    omega
  | @callable name _ _ _ _ params body _ _ _ _ _ hp _ _ _ _ ih =>
    intro kind Γ
    have hparams := count_parameters hp a
    have hbody := ih kind (Γ.inBody kind (.mk name params body))
    have hmap : namedTokens (params.map fun p => ⟨p, some p⟩) = params := by
      simp [namedTokens, Function.comp_def]
    simp only [Phrase.names, FunctionDecl.names, namedTokens_cons, namedTokens_append, hmap,
      name_free, List.cons_append, List.count_append, List.count_cons] at hparams hbody ⊢
    omega
  | @moreMethods fs f _ _ _ _ _ ih ih' =>
    intro kind Γ
    have hrest := ih kind Γ
    have hlast := ih' f.methodContext Γ
    simp only [Phrase.names, FunctionDecl.namesOfMethods_append, FunctionDecl.namesOfMethods,
      List.append_nil, namedTokens_append, List.count_append] at hrest hlast ⊢
    omega

/-- The namings of a program that some tokens spell have tokens of these. -/
theorem names_subperm {program : List Stmt} {ts : List Token}
    (h : Spells (.declarations program) ts []) : (namedTokens (namings program)).Subperm ts := by
  refine List.subperm_ext_iff.mpr fun a _ => ?_
  have hcount := h.count_names a .none .top
  rwa [List.count_nil, Nat.add_zero] at hcount

/-- Where every token has a line of its own, two namings on the same line are the same. -/
theorem naming_unique {program : List Stmt} {ts : List Token}
    (h : Spells (.declarations program) ts []) (hts : (ts.map (·.line)).Nodup) {n m : Naming}
    (hn : n ∈ namings program) (hm : m ∈ namings program) (hline : n.name.line = m.name.line) :
    n = m := by
  have hnodup : ((namedTokens (namings program)).map (·.line)).Nodup := by
    obtain ⟨own, hperm, hsub⟩ := (names_subperm h)
    exact (hperm.map _).nodup_iff.mp (hts.sublist (hsub.map _))
  rw [namedTokens, List.map_map] at hnodup
  exact List.inj_on_of_nodup_map hnodup hn hm hline

end Spelling

section Respelling

def Naming.respell (f : Respelling) (n : Naming) : Naming :=
  ⟨f.token n.name, n.declaration.map f.token⟩

variable {f : Respelling}

@[simp] theorem Naming.respell_free (t : Token) :
    (Naming.free t).respell f = .free (f.token t) := rfl

@[simp] theorem Place.respell_declared (Γ : Place) (t : Token) :
    (Γ.declared t).respell f = (Γ.respell f).declared (f.token t) := by
  unfold declared
  by_cases h : Γ.opens = [] <;> simp [h, Naming.respell]

variable (hf : f.KeepsTexts)

include hf

theorem nearest?_respell (x : String) (opens : List OpenScope) :
    nearest? x (opens.map (OpenScope.respell f)) =
      (nearest? x opens).map fun found => (found.1, found.2.respell f) := by
  induction opens with
  | nil => rfl
  | cons s outer ih =>
    have hfind : (s.respell f).binders.find? (·.name == x) =
        (s.binders.find? (·.name == x)).map (Binder.respell f) := by
      have hname : (fun b : Binder => b.name == x) ∘ Binder.respell f = fun b => b.name == x :=
        funext fun b => congrArg (· == x) (Binder.name_respell hf b)
      rw [OpenScope.respell, List.find?_map, hname]
    rw [List.map_cons, nearest?, nearest?, hfind, ih]
    cases s.binders.find? (·.name == x) with
    | some b => rfl
    | none => cases nearest? x outer <;> rfl

theorem nearestNamed?_respell (x : String) (opens : List OpenScope) :
    nearestNamed? x (opens.map (OpenScope.respell f)) = (nearestNamed? x opens).map f.token := by
  rw [nearestNamed?, nearest?_respell hf, nearestNamed?]
  rcases nearest? x opens with _ | ⟨i, t | _ | _⟩ <;> rfl

theorem Place.respell_naming (Γ : Place) (t : Token) :
    (Γ.naming t).respell f = (Γ.respell f).naming (f.token t) := by
  have hdeclaration (x : String) :
      (Γ.respell f).declaration? x = (Γ.declaration? x).map f.token := by
    have hnearest := nearestNamed?_respell hf x Γ.opens
    unfold declaration? respell
    rcases Γ.underway with _ | ⟨u, _ | _⟩
    · exact hnearest
    · simp only [Option.map_some, Underway.respell, hf u, ne_eq, List.map_eq_nil_iff]
      split
      · rfl
      · exact hnearest
    · exact hnearest
  rw [naming, naming, Naming.respell, hdeclaration, hf t]

theorem FunctionDecl.methodContext_respell (d : FunctionDecl) :
    (d.respell f).methodContext = d.methodContext := by
  simp [FunctionDecl.methodContext, FunctionDecl.isInitializer, hf d.name]

omit hf

mutual

theorem Expr.names_respell (hf : f.KeepsTexts) (Γ : Place) : ∀ e : Expr,
    (e.respell f).names (Γ.respell f) = (e.names Γ).map (Naming.respell f)
  | .constant _ => rfl
  | .group e => e.names_respell hf Γ
  | .unary _ e => e.names_respell hf Γ
  | .binary l _ r | .logical l _ r => by
    simp [Expr.respell, Expr.names, l.names_respell hf, r.names_respell hf]
  | .variable r => by simp [Expr.respell, Expr.names, Place.respell_naming hf]
  | .assign r e => by
    simp [Expr.respell, Expr.names, Place.respell_naming hf, e.names_respell hf]
  | .call e _ es => by
    rw [Expr.respell, Expr.names, e.names_respell hf, Expr.namesOfAll_respell hf Γ es,
      ← List.map_append, Expr.names]
  | .get e _ => by simp [Expr.respell, Expr.names, e.names_respell hf]
  | .set e _ v => by simp [Expr.respell, Expr.names, e.names_respell hf, v.names_respell hf]
  | .receiver _ => rfl
  | .inherited _ _ => rfl

theorem Expr.namesOfAll_respell (hf : f.KeepsTexts) (Γ : Place) : ∀ es : List Expr,
    Expr.namesOfAll (Γ.respell f) (Expr.respellAll f es) =
      (Expr.namesOfAll Γ es).map (Naming.respell f)
  | [] => rfl
  | e :: rest => by
    rw [Expr.respellAll, Expr.namesOfAll, e.names_respell hf, Expr.namesOfAll_respell hf Γ rest,
      ← List.map_append, Expr.namesOfAll]

end

theorem Expr.namesOf?_respell (hf : f.KeepsTexts) (Γ : Place) (e : Option Expr) :
    Expr.namesOf? (Γ.respell f) (e.map (Expr.respell f)) =
      (Expr.namesOf? Γ e).map (Naming.respell f) := by
  cases e with
  | none => rfl
  | some e => exact e.names_respell hf Γ

mutual

theorem Stmt.names_respell (hf : f.KeepsTexts) (Γ : Place) : ∀ s : Stmt,
    (s.respell f).names (Γ.respell f) = (s.names Γ).map (Naming.respell f)
  | .expression e | .print e => e.names_respell hf Γ
  | .varDecl t e => by
    rw [Stmt.respell, Stmt.names, ← Place.respell_declaring, Expr.namesOf?_respell hf,
      ← Place.respell_declared, ← List.map_cons, Stmt.names]
  | .block body => Stmt.namesOfAll_respell hf Γ.inBlock body
  | .ifThen e s => by
    simp [Stmt.respell, Stmt.names, e.names_respell hf, s.names_respell hf]
  | .ifElse e s t => by
    simp [Stmt.respell, Stmt.names, e.names_respell hf, s.names_respell hf, t.names_respell hf]
  | .loop e s i => by
    rw [Stmt.respell, Stmt.names, e.names_respell hf, Expr.namesOf?_respell hf,
      ← Place.respell_inLoop, s.names_respell hf, ← List.map_append, ← List.map_append, Stmt.names]
  | .function d => by
    rw [Stmt.respell, Stmt.names, FunctionDecl.respell_name, ← Place.respell_define,
      d.names_respell hf, Stmt.names]
  | .classDecl t r ds => by
    have hsuperclass : (r.map (Reference.respell f)).toList.map
        (fun r => ((Γ.declaring t true).respell f).naming r.name) =
          (r.toList.map fun r => (Γ.declaring t true).naming r.name).map (Naming.respell f) := by
      cases r <;> simp [Place.respell_naming hf]
    rw [Stmt.respell, Stmt.names, ← Place.respell_declaring, hsuperclass, ← Place.respell_define,
      ← Place.respell_inClass, FunctionDecl.namesOfMethods_respell hf, ← Naming.respell_free,
      ← List.map_cons, ← List.map_append, Stmt.names]
  | .returning _ e => Expr.namesOf?_respell hf Γ e
  | .breaking _ | .continuing _ => rfl

theorem Stmt.namesOfAll_respell (hf : f.KeepsTexts) : ∀ (Γ : Place) (ss : List Stmt),
    Stmt.namesOfAll (Γ.respell f) (Stmt.respellAll f ss) =
      (Stmt.namesOfAll Γ ss).map (Naming.respell f)
  | _, [] => rfl
  | Γ, s :: rest => by
    rw [Stmt.respellAll, Stmt.namesOfAll, s.names_respell hf, ← Place.respell_after,
      Stmt.namesOfAll_respell hf (Γ.after s) rest, ← List.map_append, Stmt.namesOfAll]

theorem FunctionDecl.names_respell (hf : f.KeepsTexts) (kind : FunctionContext) (Γ : Place) :
    ∀ d : FunctionDecl,
    (d.respell f).names kind (Γ.respell f) = (d.names kind Γ).map (Naming.respell f)
  | .mk name params body => by
    have hbody := Γ.respell_inBody (f := f) kind (.mk name params body)
    rw [FunctionDecl.respell] at hbody
    rw [FunctionDecl.respell, FunctionDecl.names, ← hbody, Stmt.namesOfAll_respell hf,
      FunctionDecl.names]
    simp [Function.comp_def, Naming.respell, Naming.free]

theorem FunctionDecl.namesOfMethods_respell (hf : f.KeepsTexts) (Γ : Place) :
    ∀ ds : List FunctionDecl,
    FunctionDecl.namesOfMethods (Γ.respell f) (FunctionDecl.respellAll f ds) =
      (FunctionDecl.namesOfMethods Γ ds).map (Naming.respell f)
  | [] => rfl
  | d :: rest => by
    rw [FunctionDecl.respellAll, FunctionDecl.namesOfMethods, d.methodContext_respell hf,
      d.names_respell hf, FunctionDecl.namesOfMethods_respell hf Γ rest, ← List.map_append,
      FunctionDecl.namesOfMethods]

end

/-- With the same texts the names of a program are the same. -/
theorem namings_respell (hf : f.KeepsTexts) (program : List Stmt) :
    namings (program.map (Stmt.respell f)) = (namings program).map (Naming.respell f) := by
  rw [← Stmt.respellAll_eq_map]
  exact Stmt.namesOfAll_respell hf .top program

end Respelling

section Variables

/-- What belongs to a declaration is the name of a variable, with the text of the declaration. -/
def Naming.Proper (n : Naming) : Prop :=
  ∀ t ∈ n.declaration, n.name.IsName ∧ t.lexeme = n.name.lexeme

theorem Naming.Proper.free (t : Token) : (Naming.free t).Proper := by
  rintro _ ⟨⟩

theorem nearestNamed?_lexeme {x : String} {opens : List OpenScope} {t : Token}
    (h : nearestNamed? x opens = some t) : t.lexeme = x := by
  unfold nearestNamed? at h
  split at h
  · rename_i i u hnear
    obtain rfl := Option.some.inj h
    obtain ⟨_, -, -, hname⟩ := nearest?_eq_some hnear
    exact hname
  · cases h

theorem Place.proper_naming (Γ : Place) {t : Token} (ht : t.IsName) : (Γ.naming t).Proper := by
  intro u hu
  refine ⟨ht, ?_⟩
  have hdeclaration : Γ.declaration? t.lexeme = some u := hu
  unfold declaration? at hdeclaration
  split at hdeclaration
  · split at hdeclaration
    · rename_i hsame
      exact Option.some.inj hdeclaration ▸ hsame.2
    · exact nearestNamed?_lexeme hdeclaration
  · exact nearestNamed?_lexeme hdeclaration

theorem Place.proper_declared (Γ : Place) {t : Token} (ht : t.IsName) : (Γ.declared t).Proper := by
  intro u hu
  unfold declared at hu
  split at hu
  · cases hu
  · exact Option.some.inj hu ▸ ⟨ht, rfl⟩

mutual

theorem Expr.proper_names (Γ : Place) : ∀ e : Expr, e.WellFormed → ∀ n ∈ e.names Γ, n.Proper
  | .constant _, _ => List.forall_mem_nil _
  | .group e, h => e.proper_names Γ h
  | .unary _ e, h => e.proper_names Γ h.2
  | .binary l _ r, h =>
    List.forall_mem_append.mpr ⟨l.proper_names Γ h.2.1, r.proper_names Γ h.2.2⟩
  | .logical l _ r, h => List.forall_mem_append.mpr ⟨l.proper_names Γ h.1, r.proper_names Γ h.2⟩
  | .variable _, h => List.forall_mem_singleton.mpr (Γ.proper_naming h)
  | .assign _ e, h => List.forall_mem_cons.mpr ⟨Γ.proper_naming h.1, e.proper_names Γ h.2⟩
  | .call e _ es, h =>
    List.forall_mem_append.mpr ⟨e.proper_names Γ h.1, Expr.proper_namesOfAll Γ es h.2⟩
  | .get e t, h => List.forall_mem_append.mpr
    ⟨e.proper_names Γ h, List.forall_mem_singleton.mpr (.free t)⟩
  | .set e t v, h => List.forall_mem_append.mpr
    ⟨e.proper_names Γ h.1, List.forall_mem_cons.mpr ⟨.free t, v.proper_names Γ h.2⟩⟩
  | .receiver r, _ => List.forall_mem_singleton.mpr (.free r.name)
  | .inherited r t, _ => List.forall_mem_cons.mpr
    ⟨.free r.name, List.forall_mem_singleton.mpr (.free t)⟩

theorem Expr.proper_namesOfAll (Γ : Place) : ∀ es : List Expr, Expr.AllWellFormed es →
    ∀ n ∈ Expr.namesOfAll Γ es, n.Proper
  | [], _ => List.forall_mem_nil _
  | e :: rest, h =>
    List.forall_mem_append.mpr ⟨e.proper_names Γ h.1, Expr.proper_namesOfAll Γ rest h.2⟩

end

theorem Expr.proper_namesOf? (Γ : Place) (e : Option Expr) (h : ∀ x ∈ e, x.WellFormed) :
    ∀ n ∈ Expr.namesOf? Γ e, n.Proper := by
  cases e with
  | none => exact List.forall_mem_nil _
  | some e => exact e.proper_names Γ (h e rfl)

mutual

theorem Stmt.proper_names (Γ : Place) : ∀ s : Stmt, s.WellFormed → ∀ n ∈ s.names Γ, n.Proper
  | .expression e, h | .print e, h => e.proper_names Γ h
  | .varDecl _ e, h => List.forall_mem_cons.mpr
    ⟨Γ.proper_declared h.1, Expr.proper_namesOf? _ e h.2⟩
  | .block body, h => Stmt.proper_namesOfAll Γ.inBlock body h
  | .ifThen e s, h => List.forall_mem_append.mpr ⟨e.proper_names Γ h.1, s.proper_names Γ h.2.1⟩
  | .ifElse e s t, h => List.forall_mem_append.mpr ⟨List.forall_mem_append.mpr
    ⟨e.proper_names Γ h.1, s.proper_names Γ h.2.1⟩, t.proper_names Γ h.2.2.2.1⟩
  | .loop e s i, h => List.forall_mem_append.mpr ⟨List.forall_mem_append.mpr
    ⟨e.proper_names Γ h.1, s.proper_names Γ.inLoop h.2.1⟩, Expr.proper_namesOf? Γ i h.2.2.2⟩
  | .function f, h => f.proper_names .function _ h
  | .classDecl t r fs, h => by
    refine List.forall_mem_append.mpr ⟨List.forall_mem_cons.mpr ⟨.free t, ?_⟩,
      FunctionDecl.proper_namesOfMethods _ fs h.2.2⟩
    cases r with
    | none => exact List.forall_mem_nil _
    | some r => exact List.forall_mem_singleton.mpr (Place.proper_naming _ (h.2.1 r rfl))
  | .returning _ e, h => Expr.proper_namesOf? Γ e h
  | .breaking _, _ | .continuing _, _ => List.forall_mem_nil _

theorem Stmt.proper_namesOfAll : ∀ (Γ : Place) (ss : List Stmt), Stmt.AllWellFormed ss →
    ∀ n ∈ Stmt.namesOfAll Γ ss, n.Proper
  | _, [], _ => List.forall_mem_nil _
  | Γ, s :: rest, h => List.forall_mem_append.mpr
    ⟨s.proper_names Γ h.1, Stmt.proper_namesOfAll (Γ.after s) rest h.2⟩

theorem FunctionDecl.proper_names (kind : FunctionContext) (Γ : Place) : ∀ f : FunctionDecl,
    f.WellFormed → ∀ n ∈ f.names kind Γ, n.Proper
  | .mk name params body, h => by
    refine List.forall_mem_append.mpr ⟨List.forall_mem_cons.mpr ⟨.free name, ?_⟩,
      Stmt.proper_namesOfAll _ body h.2.2⟩
    rintro n hn
    obtain ⟨p, hp, rfl⟩ := List.mem_map.mp hn
    rintro _ ⟨⟩
    exact ⟨h.2.1 p hp, rfl⟩

theorem FunctionDecl.proper_namesOfMethods (Γ : Place) : ∀ fs : List FunctionDecl,
    FunctionDecl.AllWellFormed fs → ∀ n ∈ FunctionDecl.namesOfMethods Γ fs, n.Proper
  | [], _ => List.forall_mem_nil _
  | f :: rest, h => List.forall_mem_append.mpr
    ⟨f.proper_names f.methodContext Γ h.1, FunctionDecl.proper_namesOfMethods Γ rest h.2⟩

end

theorem proper_namings {program : List Stmt} (h : Stmt.AllWellFormed program) :
    ∀ n ∈ namings program, n.Proper := Stmt.proper_namesOfAll .top program h

end Variables

section Declarations

/-- A token is the name of a declaration, be it of a variable or of something else. -/
def Declares (ns : List Naming) (t : Token) : Prop :=
  ∃ n ∈ ns, n.name = t ∧ ∀ u ∈ n.declaration, u = t

theorem Declares.mono {ns ns' : List Naming} {t : Token} (h : Declares ns t) (hs : ns ⊆ ns') :
    Declares ns' t :=
  let ⟨n, hn, ht⟩ := h
  ⟨n, hs hn, ht⟩

/-- Everything that is open at a place was declared by one of the names. -/
structure Place.DeclaredIn (ns : List Naming) (Γ : Place) : Prop where
  binders : ∀ s ∈ Γ.opens, ∀ t, .named t ∈ s.binders → Declares ns t
  underway : ∀ u ∈ Γ.underway, Declares ns u.name

variable {ns : List Naming} {Γ : Place}

theorem Place.DeclaredIn.define (h : Γ.DeclaredIn ns) {t : Token} (ht : Declares ns t) :
    (Γ.define t).DeclaredIn ns := by
  refine ⟨fun s hs u hu => ?_, h.underway⟩
  cases hopens : Γ.opens with
  | nil => simp [Place.define, hopens] at hs
  | cons first outer =>
    rw [show (Γ.define t).opens = first.add (.named t) :: outer by simp [Place.define, hopens]] at hs
    rcases List.mem_cons.mp hs with rfl | hs
    · rcases List.mem_append.mp hu with hu | hu
      · exact h.binders first (by simp [hopens]) u hu
      · obtain rfl := Binder.named.inj (List.mem_singleton.mp hu)
        exact ht
    · exact h.binders s (by simp [hopens, hs]) u hu

/-- A scope is opened whose names are declared. -/
theorem Place.DeclaredIn.opening (h : Γ.DeclaredIn ns) {Δ : Place} {s : OpenScope}
    (hopens : Δ.opens = s :: Γ.opens) (hunderway : Δ.underway = Γ.underway)
    (hs : ∀ t, .named t ∈ s.binders → Declares ns t) : Δ.DeclaredIn ns := by
  constructor
  · rw [hopens]
    exact List.forall_mem_cons.mpr ⟨hs, h.binders⟩
  · rw [hunderway]
    exact h.underway

theorem Place.DeclaredIn.inClass (h : Γ.DeclaredIn ns) (superclass : Option Reference) :
    (Γ.inClass superclass).DeclaredIn ns := by
  have hreceiver : ∀ t, .named t ∈ OpenScope.receiver.binders → Declares ns t := by
    simp [OpenScope.receiver]
  cases superclass with
  | none => exact h.opening rfl rfl hreceiver
  | some r =>
    let outer : Place := { Γ with opens := .superclass :: Γ.opens }
    have houter : outer.DeclaredIn ns := h.opening rfl rfl (by simp [OpenScope.superclass])
    exact houter.opening rfl rfl hreceiver

theorem FunctionDecl.declares_name (f : FunctionDecl) (kind : FunctionContext) :
    Declares (f.names kind Γ) f.name := by
  cases f with
  | mk name params body => exact ⟨.free name, .head _, rfl, by simp [Naming.free]⟩

theorem FunctionDecl.declares_param {f : FunctionDecl} (kind : FunctionContext) {p : Token}
    (hp : p ∈ f.params) : Declares (f.names kind Γ) p := by
  cases f with
  | mk name params body =>
    have hmem : p ∈ params := hp
    refine ⟨⟨p, some p⟩, ?_, rfl, by simp⟩
    simp [FunctionDecl.names, hmem]

theorem Stmt.declares_declared {s : Stmt} {t : Token} (h : s.declared? = some t) :
    Declares (s.names Γ) t := by
  cases s with
  | varDecl name e =>
    obtain rfl := Option.some.inj h
    refine ⟨Γ.declared name, .head _, rfl, fun u hu => ?_⟩
    unfold Place.declared at hu
    split at hu
    · cases hu
    · exact (Option.some.inj hu).symm
  | function f =>
    obtain rfl := Option.some.inj h
    exact f.declares_name _
  | classDecl name r fs =>
    obtain rfl := Option.some.inj h
    exact ⟨.free name, .head _, rfl, by simp [Naming.free]⟩
  | _ => cases h

/-- The name of a global belongs to no declaration. -/
theorem Stmt.naming_of_declared {s : Stmt} {t : Token} (h : s.declared? = some t) :
    ∃ n ∈ s.names Γ, n.name = t ∧ (Γ.opens = [] → n.declaration = none) := by
  cases s with
  | varDecl name e =>
    obtain rfl := Option.some.inj h
    exact ⟨Γ.declared name, .head _, rfl, fun hopens => if_pos hopens⟩
  | function f =>
    obtain rfl := Option.some.inj h
    refine ⟨.free f.name, ?_, rfl, fun _ => rfl⟩
    cases f
    exact .head _
  | classDecl name r fs =>
    obtain rfl := Option.some.inj h
    exact ⟨.free name, .head _, rfl, fun _ => rfl⟩
  | _ => cases h

/-- Whatever is open where analysis comes to was declared in the program. -/
theorem Meets.declared {program : List Stmt} {Γ : Place} {n : Node} (h : Meets program Γ n) :
    Γ.DeclaredIn (namings program) := by
  induction h with
  | top => exact ⟨by simp [Place.top], by simp [Place.top]⟩
  | @part Γ Δ n m hn hp ih =>
    have hnames := hn.names
    cases hp
    case initializer t e =>
      have ht := (Stmt.declares_declared (Γ := Γ) (s := .varDecl t (some e)) rfl).mono hnames
      refine ⟨ih.binders, ?_⟩
      rintro _ ⟨⟩
      exact ht
    case superclass t r fs =>
      have ht := (Stmt.declares_declared (Γ := Γ) (s := .classDecl t (some r) fs) rfl).mono hnames
      refine ⟨ih.binders, ?_⟩
      rintro _ ⟨⟩
      exact ht
    case block =>
      exact ih.opening rfl rfl (by simp)
    case function f =>
      exact ih.define ((Stmt.declares_declared (s := .function f) rfl).mono hnames)
    case method t r fs f hf =>
      have ht := (Stmt.declares_declared (s := .classDecl t r fs) rfl).mono hnames
      exact (ih.define ht).inClass r
    case rest s rest =>
      unfold Place.after
      split
      · rename_i t ht
        exact ih.define (((Stmt.declares_declared ht).mono
          (List.subset_append_left _ _)).mono hnames)
      · exact ih
    case inside kind f =>
      refine ih.opening rfl rfl fun t ht => ?_
      obtain ⟨p, hp, he⟩ := List.mem_map.mp ht
      obtain rfl := Binder.named.inj he
      exact (FunctionDecl.declares_param kind hp).mono hnames
    all_goals exact ⟨ih.binders, ih.underway⟩

end Declarations

end Lox
