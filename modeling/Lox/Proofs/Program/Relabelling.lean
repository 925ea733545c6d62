import Lox.Program.Nodes

/-! Programs with other node identities and line numbers.

Node identities are drawn from a counter, so a text read later gets other ones, and a text further
down has other lines. A relabelling changes these in a tree and nothing else. -/

namespace Lox

structure Relabelling where
  node : NodeId → NodeId
  line : Nat → Nat

/-- Other identities on the same lines. -/
def Relabelling.ofNodes (g : NodeId → NodeId) : Relabelling := ⟨g, id⟩

/-- All that a tree does not share with another one that is made of the same tokens. -/
def Relabelling.anonymous : Relabelling := .ofNodes fun _ => ⟨0⟩

/-- All that a tree does not share with another of the same spelling. -/
def Relabelling.blank : Relabelling := ⟨fun _ => ⟨0⟩, fun _ => 0⟩

@[simp] theorem Relabelling.ofNodes_node (g : NodeId → NodeId) (n : NodeId) :
    (Relabelling.ofNodes g).node n = g n := rfl

def Token.relabel (f : Relabelling) (t : Token) : Token := { t with line := f.line t.line }

def Reference.relabel (f : Relabelling) (r : Reference) : Reference :=
  ⟨f.node r.node, r.name.relabel f⟩

mutual

def Expr.relabel (f : Relabelling) : Expr → Expr
  | .constant value => .constant value
  | .group inner => .group (inner.relabel f)
  | .unary operator operand => .unary (operator.relabel f) (operand.relabel f)
  | .binary left operator right =>
    .binary (left.relabel f) (operator.relabel f) (right.relabel f)
  | .logical left operator right =>
    .logical (left.relabel f) (operator.relabel f) (right.relabel f)
  | .variable target => .variable (target.relabel f)
  | .assign target value => .assign (target.relabel f) (value.relabel f)
  | .call callee paren arguments =>
    .call (callee.relabel f) (paren.relabel f) (Expr.relabelAll f arguments)
  | .get object name => .get (object.relabel f) (name.relabel f)
  | .set object name value => .set (object.relabel f) (name.relabel f) (value.relabel f)
  | .receiver keyword => .receiver (keyword.relabel f)
  | .inherited keyword method => .inherited (keyword.relabel f) (method.relabel f)

def Expr.relabelAll (f : Relabelling) : List Expr → List Expr
  | [] => []
  | e :: rest => e.relabel f :: Expr.relabelAll f rest

end

mutual

def Stmt.relabel (f : Relabelling) : Stmt → Stmt
  | .expression value => .expression (value.relabel f)
  | .print value => .print (value.relabel f)
  | .varDecl name initializer => .varDecl (name.relabel f) (initializer.map (Expr.relabel f))
  | .block body => .block (Stmt.relabelAll f body)
  | .ifThen condition consequent => .ifThen (condition.relabel f) (consequent.relabel f)
  | .ifElse condition consequent alternative =>
    .ifElse (condition.relabel f) (consequent.relabel f) (alternative.relabel f)
  | .loop condition body increment =>
    .loop (condition.relabel f) (body.relabel f) (increment.map (Expr.relabel f))
  | .function decl => .function (decl.relabel f)
  | .classDecl name superclass methods =>
    .classDecl (name.relabel f) (superclass.map (Reference.relabel f))
      (FunctionDecl.relabelAll f methods)
  | .returning keyword value => .returning (keyword.relabel f) (value.map (Expr.relabel f))
  | .breaking keyword => .breaking (keyword.relabel f)
  | .continuing keyword => .continuing (keyword.relabel f)

def Stmt.relabelAll (f : Relabelling) : List Stmt → List Stmt
  | [] => []
  | s :: rest => s.relabel f :: Stmt.relabelAll f rest

def FunctionDecl.relabel (f : Relabelling) : FunctionDecl → FunctionDecl
  | .mk name params body =>
    .mk (name.relabel f) (params.map (Token.relabel f)) (Stmt.relabelAll f body)

def FunctionDecl.relabelAll (f : Relabelling) : List FunctionDecl → List FunctionDecl
  | [] => []
  | decl :: rest => decl.relabel f :: FunctionDecl.relabelAll f rest

end

section

variable {f : Relabelling}

@[simp] theorem Token.relabel_kind (t : Token) : (t.relabel f).kind = t.kind := rfl

@[simp] theorem Token.relabel_lexeme (t : Token) : (t.relabel f).lexeme = t.lexeme := rfl

@[simp] theorem Token.relabel_literal (t : Token) : (t.relabel f).literal = t.literal := rfl

@[simp] theorem Token.relabel_ofNodes (g : NodeId → NodeId) (t : Token) :
    t.relabel (.ofNodes g) = t := rfl

@[simp] theorem Token.relabel_anonymous (t : Token) : t.relabel .anonymous = t := rfl

@[simp] theorem Token.map_relabel_anonymous (ts : List Token) :
    ts.map (Token.relabel .anonymous) = ts := List.map_id' ts

@[simp] theorem Token.map_relabel_ofNodes (g : NodeId → NodeId) (ts : List Token) :
    ts.map (Token.relabel (.ofNodes g)) = ts := List.map_id' ts

@[simp] theorem Expr.relabelAll_eq_map (es : List Expr) :
    Expr.relabelAll f es = es.map (Expr.relabel f) := by
  induction es with
  | nil => rfl
  | cons e rest ih => rw [Expr.relabelAll, ih, List.map_cons]

@[simp] theorem Stmt.relabelAll_eq_map (ss : List Stmt) :
    Stmt.relabelAll f ss = ss.map (Stmt.relabel f) := by
  induction ss with
  | nil => rfl
  | cons s rest ih => rw [Stmt.relabelAll, ih, List.map_cons]

@[simp] theorem FunctionDecl.relabelAll_eq_map (decls : List FunctionDecl) :
    FunctionDecl.relabelAll f decls = decls.map (FunctionDecl.relabel f) := by
  induction decls with
  | nil => rfl
  | cons decl rest ih => rw [FunctionDecl.relabelAll, ih, List.map_cons]

@[simp] theorem Reference.relabel_name (r : Reference) :
    (r.relabel f).name = r.name.relabel f := rfl

theorem Reference.name_of_anonymous {r r' : Reference}
    (h : r.relabel .anonymous = r'.relabel .anonymous) : r'.name = r.name :=
  (congrArg Reference.name h).symm

@[simp] theorem Reference.relabel_node (r : Reference) :
    (r.relabel f).node = f.node r.node := rfl

@[simp] theorem FunctionDecl.relabel_name (d : FunctionDecl) :
    (d.relabel f).name = d.name.relabel f := by
  cases d
  rfl

@[simp] theorem FunctionDecl.relabel_params (d : FunctionDecl) :
    (d.relabel f).params = d.params.map (Token.relabel f) := by
  cases d
  rfl

@[simp] theorem FunctionDecl.relabel_body (d : FunctionDecl) :
    (d.relabel f).body = d.body.map (Stmt.relabel f) := by
  cases d
  exact Stmt.relabelAll_eq_map _

@[simp] theorem FunctionDecl.relabel_isInitializer (d : FunctionDecl) :
    (d.relabel f).isInitializer = d.isInitializer := by
  simp [FunctionDecl.isInitializer]

end

/-- One relabelling after another. -/
def Relabelling.after (g f : Relabelling) : Relabelling := ⟨g.node ∘ f.node, g.line ∘ f.line⟩

section

variable {f h : Relabelling}

theorem Token.relabel_relabel (t : Token) : (t.relabel f).relabel h = t.relabel (h.after f) := rfl

theorem Token.relabel_comp :
    Token.relabel h ∘ Token.relabel f = Token.relabel (h.after f) := rfl

theorem Reference.relabel_relabel (r : Reference) :
    (r.relabel f).relabel h = r.relabel (h.after f) := rfl

theorem Reference.relabel_comp :
    Reference.relabel h ∘ Reference.relabel f = Reference.relabel (h.after f) := rfl

mutual

theorem Expr.relabel_relabel : ∀ e : Expr, (e.relabel f).relabel h = e.relabel (h.after f)
  | .constant _ => rfl
  | .group e => by simp only [Expr.relabel, e.relabel_relabel]
  | .unary _ e => by simp only [Expr.relabel, e.relabel_relabel, Token.relabel_relabel]
  | .binary l _ r | .logical l _ r => by
    simp only [Expr.relabel, l.relabel_relabel, r.relabel_relabel, Token.relabel_relabel]
  | .variable _ => rfl
  | .assign _ e => by simp only [Expr.relabel, e.relabel_relabel, Reference.relabel_relabel]
  | .call e _ es => by
    simp only [Expr.relabel, e.relabel_relabel, Expr.relabelAll_relabelAll es, Token.relabel_relabel]
  | .get e _ => by simp only [Expr.relabel, e.relabel_relabel, Token.relabel_relabel]
  | .set e _ v => by
    simp only [Expr.relabel, e.relabel_relabel, v.relabel_relabel, Token.relabel_relabel]
  | .receiver _ => rfl
  | .inherited _ _ => rfl

theorem Expr.relabelAll_relabelAll : ∀ es : List Expr,
    Expr.relabelAll h (Expr.relabelAll f es) = Expr.relabelAll (h.after f) es
  | [] => rfl
  | e :: rest => by
    simp only [Expr.relabelAll, e.relabel_relabel, Expr.relabelAll_relabelAll rest]

end

theorem Expr.relabel_comp : Expr.relabel h ∘ Expr.relabel f = Expr.relabel (h.after f) :=
  funext Expr.relabel_relabel

mutual

theorem Stmt.relabel_relabel : ∀ s : Stmt, (s.relabel f).relabel h = s.relabel (h.after f)
  | .expression e | .print e => by simp only [Stmt.relabel, e.relabel_relabel]
  | .varDecl _ e | .returning _ e => by
    simp only [Stmt.relabel, Option.map_map, Expr.relabel_comp, Token.relabel_relabel]
  | .block body => by simp only [Stmt.relabel, Stmt.relabelAll_relabelAll body]
  | .ifThen e s => by simp only [Stmt.relabel, e.relabel_relabel, s.relabel_relabel]
  | .ifElse e s t => by
    simp only [Stmt.relabel, e.relabel_relabel, s.relabel_relabel, t.relabel_relabel]
  | .loop e s i => by
    simp only [Stmt.relabel, e.relabel_relabel, s.relabel_relabel, Option.map_map,
      Expr.relabel_comp]
  | .function d => by simp only [Stmt.relabel, d.relabel_relabel]
  | .classDecl _ _ methods => by
    simp only [Stmt.relabel, FunctionDecl.relabelAll_relabelAll methods, Option.map_map,
      Token.relabel_relabel, Reference.relabel_comp]
  | .breaking _ | .continuing _ => rfl

theorem Stmt.relabelAll_relabelAll : ∀ ss : List Stmt,
    Stmt.relabelAll h (Stmt.relabelAll f ss) = Stmt.relabelAll (h.after f) ss
  | [] => rfl
  | s :: rest => by
    simp only [Stmt.relabelAll, s.relabel_relabel, Stmt.relabelAll_relabelAll rest]

theorem FunctionDecl.relabel_relabel : ∀ d : FunctionDecl,
    (d.relabel f).relabel h = d.relabel (h.after f)
  | .mk _ params body => by
    simp only [FunctionDecl.relabel, List.map_map, Token.relabel_comp, Token.relabel_relabel,
      Stmt.relabelAll_relabelAll body]

theorem FunctionDecl.relabelAll_relabelAll : ∀ ds : List FunctionDecl,
    FunctionDecl.relabelAll h (FunctionDecl.relabelAll f ds) =
      FunctionDecl.relabelAll (h.after f) ds
  | [] => rfl
  | d :: rest => by
    simp only [FunctionDecl.relabelAll, d.relabel_relabel, FunctionDecl.relabelAll_relabelAll rest]

end

end

variable {g : NodeId → NodeId}

theorem Reference.relabel_eq_self {r : Reference} (h : g r.node = r.node) :
    r.relabel (.ofNodes g) = r := by
  rw [Reference.relabel, show (Relabelling.ofNodes g).node r.node = r.node from h]
  rfl

mutual

/-- A relabelling that keeps the identities of a tree keeps the tree. -/
theorem Expr.relabel_eq_self : ∀ (e : Expr), (∀ n ∈ e.nodes, g n = n) → e.relabel (.ofNodes g) = e
  | .constant _, _ => rfl
  | .group e, h => by rw [Expr.relabel, e.relabel_eq_self h]
  | .unary _ e, h => by rw [Expr.relabel, Token.relabel_ofNodes, e.relabel_eq_self h]
  | .binary l _ r, h => by
    simp only [Expr.nodes, List.mem_append] at h
    rw [Expr.relabel, Token.relabel_ofNodes, l.relabel_eq_self fun n hn => h n (.inl hn),
      r.relabel_eq_self fun n hn => h n (.inr hn)]
  | .logical l _ r, h => by
    simp only [Expr.nodes, List.mem_append] at h
    rw [Expr.relabel, Token.relabel_ofNodes, l.relabel_eq_self fun n hn => h n (.inl hn),
      r.relabel_eq_self fun n hn => h n (.inr hn)]
  | .variable t, h => by
    rw [Expr.relabel, Reference.relabel_eq_self (h _ (by simp [Expr.nodes]))]
  | .assign t e, h => by
    simp only [Expr.nodes, List.mem_cons] at h
    rw [Expr.relabel, Reference.relabel_eq_self (h _ (.inl rfl)),
      e.relabel_eq_self fun n hn => h n (.inr hn)]
  | .call e _ es, h => by
    simp only [Expr.nodes, List.mem_append] at h
    rw [Expr.relabel, Token.relabel_ofNodes, e.relabel_eq_self fun n hn => h n (.inl hn),
      Expr.relabelAll_eq_self es fun n hn => h n (.inr hn)]
  | .get e _, h => by rw [Expr.relabel, Token.relabel_ofNodes, e.relabel_eq_self h]
  | .set e _ v, h => by
    simp only [Expr.nodes, List.mem_append] at h
    rw [Expr.relabel, Token.relabel_ofNodes, e.relabel_eq_self fun n hn => h n (.inl hn),
      v.relabel_eq_self fun n hn => h n (.inr hn)]
  | .receiver k, h => by
    rw [Expr.relabel, Reference.relabel_eq_self (h _ (by simp [Expr.nodes]))]
  | .inherited k _, h => by
    rw [Expr.relabel, Token.relabel_ofNodes, Reference.relabel_eq_self (h _ (by simp [Expr.nodes]))]

theorem Expr.relabelAll_eq_self : ∀ (es : List Expr),
    (∀ n ∈ Expr.nodesOfAll es, g n = n) → Expr.relabelAll (.ofNodes g) es = es
  | [], _ => rfl
  | e :: rest, h => by
    simp only [Expr.nodesOfAll, List.mem_append] at h
    rw [Expr.relabelAll, e.relabel_eq_self fun n hn => h n (.inl hn),
      Expr.relabelAll_eq_self rest fun n hn => h n (.inr hn)]

end

theorem Expr.relabel?_eq_self : ∀ (e : Option Expr),
    (∀ n ∈ Expr.nodesOf? e, g n = n) → e.map (Expr.relabel (.ofNodes g)) = e
  | none, _ => rfl
  | some e, h => by rw [Option.map_some, e.relabel_eq_self h]

mutual

theorem Stmt.relabel_eq_self : ∀ (s : Stmt), (∀ n ∈ s.nodes, g n = n) → s.relabel (.ofNodes g) = s
  | .expression e, h => by rw [Stmt.relabel, e.relabel_eq_self h]
  | .print e, h => by rw [Stmt.relabel, e.relabel_eq_self h]
  | .varDecl _ e, h => by rw [Stmt.relabel, Token.relabel_ofNodes, Expr.relabel?_eq_self e h]
  | .block body, h => by rw [Stmt.relabel, Stmt.relabelAll_eq_self body h]
  | .ifThen e s, h => by
    simp only [Stmt.nodes, List.mem_append] at h
    rw [Stmt.relabel, e.relabel_eq_self fun n hn => h n (.inl hn),
      s.relabel_eq_self fun n hn => h n (.inr hn)]
  | .ifElse e s t, h => by
    simp only [Stmt.nodes, List.mem_append] at h
    rw [Stmt.relabel, e.relabel_eq_self fun n hn => h n (.inl (.inl hn)),
      s.relabel_eq_self fun n hn => h n (.inl (.inr hn)),
      t.relabel_eq_self fun n hn => h n (.inr hn)]
  | .loop e s i, h => by
    simp only [Stmt.nodes, List.mem_append] at h
    rw [Stmt.relabel, e.relabel_eq_self fun n hn => h n (.inl (.inl hn)),
      s.relabel_eq_self fun n hn => h n (.inl (.inr hn)),
      Expr.relabel?_eq_self i fun n hn => h n (.inr hn)]
  | .function d, h => by rw [Stmt.relabel, d.relabel_eq_self h]
  | .classDecl _ superclass methods, h => by
    simp only [Stmt.nodes, List.mem_append] at h
    rw [Stmt.relabel, Token.relabel_ofNodes,
      FunctionDecl.relabelAll_eq_self methods fun n hn => h n (.inr hn)]
    cases superclass with
    | none => rfl
    | some r => rw [Option.map_some, Reference.relabel_eq_self (h _ (.inl (by simp)))]
  | .returning _ e, h => by rw [Stmt.relabel, Token.relabel_ofNodes, Expr.relabel?_eq_self e h]
  | .breaking _, _ => rfl
  | .continuing _, _ => rfl

theorem Stmt.relabelAll_eq_self : ∀ (ss : List Stmt),
    (∀ n ∈ Stmt.nodesOfAll ss, g n = n) → Stmt.relabelAll (.ofNodes g) ss = ss
  | [], _ => rfl
  | s :: rest, h => by
    simp only [Stmt.nodesOfAll, List.mem_append] at h
    rw [Stmt.relabelAll, s.relabel_eq_self fun n hn => h n (.inl hn),
      Stmt.relabelAll_eq_self rest fun n hn => h n (.inr hn)]

theorem FunctionDecl.relabel_eq_self : ∀ (d : FunctionDecl),
    (∀ n ∈ d.nodes, g n = n) → d.relabel (.ofNodes g) = d
  | .mk _ _ body, h => by
    rw [FunctionDecl.relabel, Token.relabel_ofNodes, Token.map_relabel_ofNodes,
      Stmt.relabelAll_eq_self body h]

theorem FunctionDecl.relabelAll_eq_self : ∀ (ds : List FunctionDecl),
    (∀ n ∈ FunctionDecl.nodesOfAll ds, g n = n) → FunctionDecl.relabelAll (.ofNodes g) ds = ds
  | [], _ => rfl
  | d :: rest, h => by
    simp only [FunctionDecl.nodesOfAll, List.mem_append] at h
    rw [FunctionDecl.relabelAll, d.relabel_eq_self fun n hn => h n (.inl hn),
      FunctionDecl.relabelAll_eq_self rest fun n hn => h n (.inr hn)]

end

end Lox
