import Lox.Proofs.Program.Relabelling

/-! Programs with other tokens in the places of their own.

A respelling gives every token another text and another line, but leaves it its kind and its
literal, so that the other tokens spell a tree of the same shape. Relabellings are the respellings
that change lines alone. -/

namespace Lox

structure Respelling where
  node : NodeId → NodeId
  token : Token → Token
  kind : ∀ t, (token t).kind = t.kind
  literal : ∀ t, (token t).literal = t.literal

attribute [simp] Respelling.kind Respelling.literal

def Relabelling.respelling (f : Relabelling) : Respelling :=
  ⟨f.node, Token.relabel f, Token.relabel_kind, Token.relabel_literal⟩

def Reference.respell (f : Respelling) (r : Reference) : Reference :=
  ⟨f.node r.node, f.token r.name⟩

mutual

def Expr.respell (f : Respelling) : Expr → Expr
  | .constant value => .constant value
  | .group inner => .group (inner.respell f)
  | .unary operator operand => .unary (f.token operator) (operand.respell f)
  | .binary left operator right => .binary (left.respell f) (f.token operator) (right.respell f)
  | .logical left operator right => .logical (left.respell f) (f.token operator) (right.respell f)
  | .variable target => .variable (target.respell f)
  | .assign target value => .assign (target.respell f) (value.respell f)
  | .call callee paren arguments =>
    .call (callee.respell f) (f.token paren) (Expr.respellAll f arguments)
  | .get object name => .get (object.respell f) (f.token name)
  | .set object name value => .set (object.respell f) (f.token name) (value.respell f)
  | .receiver keyword => .receiver (keyword.respell f)
  | .inherited keyword method => .inherited (keyword.respell f) (f.token method)

def Expr.respellAll (f : Respelling) : List Expr → List Expr
  | [] => []
  | e :: rest => e.respell f :: Expr.respellAll f rest

end

mutual

def Stmt.respell (f : Respelling) : Stmt → Stmt
  | .expression value => .expression (value.respell f)
  | .print value => .print (value.respell f)
  | .varDecl name initializer => .varDecl (f.token name) (initializer.map (Expr.respell f))
  | .block body => .block (Stmt.respellAll f body)
  | .ifThen condition consequent => .ifThen (condition.respell f) (consequent.respell f)
  | .ifElse condition consequent alternative =>
    .ifElse (condition.respell f) (consequent.respell f) (alternative.respell f)
  | .loop condition body increment =>
    .loop (condition.respell f) (body.respell f) (increment.map (Expr.respell f))
  | .function decl => .function (decl.respell f)
  | .classDecl name superclass methods =>
    .classDecl (f.token name) (superclass.map (Reference.respell f))
      (FunctionDecl.respellAll f methods)
  | .returning keyword value => .returning (f.token keyword) (value.map (Expr.respell f))
  | .breaking keyword => .breaking (f.token keyword)
  | .continuing keyword => .continuing (f.token keyword)

def Stmt.respellAll (f : Respelling) : List Stmt → List Stmt
  | [] => []
  | s :: rest => s.respell f :: Stmt.respellAll f rest

def FunctionDecl.respell (f : Respelling) : FunctionDecl → FunctionDecl
  | .mk name params body => .mk (f.token name) (params.map f.token) (Stmt.respellAll f body)

def FunctionDecl.respellAll (f : Respelling) : List FunctionDecl → List FunctionDecl
  | [] => []
  | decl :: rest => decl.respell f :: FunctionDecl.respellAll f rest

end

section

variable {f : Respelling}

@[simp] theorem Reference.respell_name (r : Reference) : (r.respell f).name = f.token r.name := rfl

@[simp] theorem Reference.respell_node (r : Reference) : (r.respell f).node = f.node r.node := rfl

@[simp] theorem Expr.respellAll_eq_map (es : List Expr) :
    Expr.respellAll f es = es.map (Expr.respell f) := by
  induction es with
  | nil => rfl
  | cons e rest ih => rw [Expr.respellAll, ih, List.map_cons]

@[simp] theorem Stmt.respellAll_eq_map (ss : List Stmt) :
    Stmt.respellAll f ss = ss.map (Stmt.respell f) := by
  induction ss with
  | nil => rfl
  | cons s rest ih => rw [Stmt.respellAll, ih, List.map_cons]

@[simp] theorem FunctionDecl.respellAll_eq_map (decls : List FunctionDecl) :
    FunctionDecl.respellAll f decls = decls.map (FunctionDecl.respell f) := by
  induction decls with
  | nil => rfl
  | cons decl rest ih => rw [FunctionDecl.respellAll, ih, List.map_cons]

@[simp] theorem FunctionDecl.respell_name (d : FunctionDecl) :
    (d.respell f).name = f.token d.name := by
  cases d
  rfl

@[simp] theorem FunctionDecl.respell_params (d : FunctionDecl) :
    (d.respell f).params = d.params.map f.token := by
  cases d
  rfl

@[simp] theorem FunctionDecl.respell_body (d : FunctionDecl) :
    (d.respell f).body = d.body.map (Stmt.respell f) := by
  cases d
  exact Stmt.respellAll_eq_map _

end

section Relabelling

variable (f : Relabelling)

mutual

theorem Expr.relabel_eq_respell : ∀ e : Expr, e.relabel f = e.respell f.respelling
  | .constant _ => rfl
  | .group e => by rw [Expr.relabel, e.relabel_eq_respell, Expr.respell]
  | .unary _ e => by rw [Expr.relabel, e.relabel_eq_respell]; rfl
  | .binary l _ r | .logical l _ r => by
    rw [Expr.relabel, l.relabel_eq_respell, r.relabel_eq_respell]; rfl
  | .variable _ => rfl
  | .assign _ e => by rw [Expr.relabel, e.relabel_eq_respell]; rfl
  | .call e _ es => by
    rw [Expr.relabel, e.relabel_eq_respell, Expr.relabelAll_eq_respellAll es]; rfl
  | .get e _ => by rw [Expr.relabel, e.relabel_eq_respell]; rfl
  | .set e _ v => by rw [Expr.relabel, e.relabel_eq_respell, v.relabel_eq_respell]; rfl
  | .receiver _ => rfl
  | .inherited _ _ => rfl

theorem Expr.relabelAll_eq_respellAll : ∀ es : List Expr,
    Expr.relabelAll f es = Expr.respellAll f.respelling es
  | [] => rfl
  | e :: rest => by
    rw [Expr.relabelAll, e.relabel_eq_respell, Expr.relabelAll_eq_respellAll rest,
      Expr.respellAll]

end

theorem Expr.relabel_eq : Expr.relabel f = Expr.respell f.respelling :=
  funext (Expr.relabel_eq_respell f)

mutual

theorem Stmt.relabel_eq_respell : ∀ s : Stmt, s.relabel f = s.respell f.respelling
  | .expression e | .print e => by rw [Stmt.relabel, e.relabel_eq_respell, Stmt.respell]
  | .varDecl _ _ | .returning _ _ => by rw [Stmt.relabel, Expr.relabel_eq]; rfl
  | .block body => by rw [Stmt.relabel, Stmt.relabelAll_eq_respellAll body, Stmt.respell]
  | .ifThen e s => by
    rw [Stmt.relabel, e.relabel_eq_respell, s.relabel_eq_respell, Stmt.respell]
  | .ifElse e s t => by
    rw [Stmt.relabel, e.relabel_eq_respell, s.relabel_eq_respell, t.relabel_eq_respell,
      Stmt.respell]
  | .loop e s _ => by
    rw [Stmt.relabel, e.relabel_eq_respell, s.relabel_eq_respell, Expr.relabel_eq, Stmt.respell]
  | .function d => by rw [Stmt.relabel, d.relabel_eq_respell, Stmt.respell]
  | .classDecl _ _ methods => by
    rw [Stmt.relabel, FunctionDecl.relabelAll_eq_respellAll methods]; rfl
  | .breaking _ | .continuing _ => rfl

theorem Stmt.relabelAll_eq_respellAll : ∀ ss : List Stmt,
    Stmt.relabelAll f ss = Stmt.respellAll f.respelling ss
  | [] => rfl
  | s :: rest => by
    rw [Stmt.relabelAll, s.relabel_eq_respell, Stmt.relabelAll_eq_respellAll rest,
      Stmt.respellAll]

theorem FunctionDecl.relabel_eq_respell : ∀ d : FunctionDecl,
    d.relabel f = d.respell f.respelling
  | .mk _ _ body => by
    rw [FunctionDecl.relabel, Stmt.relabelAll_eq_respellAll body]; rfl

theorem FunctionDecl.relabelAll_eq_respellAll : ∀ ds : List FunctionDecl,
    FunctionDecl.relabelAll f ds = FunctionDecl.respellAll f.respelling ds
  | [] => rfl
  | d :: rest => by
    rw [FunctionDecl.relabelAll, d.relabel_eq_respell,
      FunctionDecl.relabelAll_eq_respellAll rest, FunctionDecl.respellAll]

end

theorem Stmt.relabel_eq : Stmt.relabel f = Stmt.respell f.respelling :=
  funext (Stmt.relabel_eq_respell f)

end Relabelling

/-- The respelling that changes nothing. -/
def Respelling.same : Respelling := (Relabelling.ofNodes id).respelling

@[simp] theorem Respelling.same_node (n : NodeId) : Respelling.same.node n = n := rfl

@[simp] theorem Respelling.map_same_token (ts : List Token) : ts.map Respelling.same.token = ts :=
  List.map_id' ts

@[simp] theorem Stmt.map_respell_same (ss : List Stmt) : ss.map (Stmt.respell .same) = ss := by
  rw [Respelling.same, ← Stmt.relabel_eq]
  exact List.map_id'' (fun s => s.relabel_eq_self fun _ _ => rfl) ss

section Nodes

variable {f : Respelling}

mutual

theorem Expr.nodes_respell : ∀ e : Expr, (e.respell f).nodes = e.nodes.map f.node
  | .constant _ => rfl
  | .group e => e.nodes_respell
  | .unary _ e => e.nodes_respell
  | .binary l _ r | .logical l _ r => by
    rw [Expr.respell, Expr.nodes, l.nodes_respell, r.nodes_respell, ← List.map_append, Expr.nodes]
  | .variable _ => rfl
  | .assign _ e => by
    rw [Expr.respell, Expr.nodes, e.nodes_respell, Expr.nodes, List.map_cons]
    rfl
  | .call e _ es => by
    rw [Expr.respell, Expr.nodes, e.nodes_respell, Expr.nodesOfAll_respell es, ← List.map_append,
      Expr.nodes]
  | .get e _ => e.nodes_respell
  | .set e _ v => by
    rw [Expr.respell, Expr.nodes, e.nodes_respell, v.nodes_respell, ← List.map_append, Expr.nodes]
  | .receiver _ => rfl
  | .inherited _ _ => rfl

theorem Expr.nodesOfAll_respell : ∀ es : List Expr,
    Expr.nodesOfAll (Expr.respellAll f es) = (Expr.nodesOfAll es).map f.node
  | [] => rfl
  | e :: rest => by
    rw [Expr.respellAll, Expr.nodesOfAll, e.nodes_respell, Expr.nodesOfAll_respell rest,
      ← List.map_append, Expr.nodesOfAll]

end

theorem Expr.nodesOf?_respell (e : Option Expr) :
    Expr.nodesOf? (e.map (Expr.respell f)) = (Expr.nodesOf? e).map f.node := by
  cases e with
  | none => rfl
  | some e => exact e.nodes_respell

mutual

theorem Stmt.nodes_respell : ∀ s : Stmt, (s.respell f).nodes = s.nodes.map f.node
  | .expression e | .print e => e.nodes_respell
  | .varDecl _ e => Expr.nodesOf?_respell e
  | .block body => Stmt.nodesOfAll_respell body
  | .ifThen e s => by
    rw [Stmt.respell, Stmt.nodes, e.nodes_respell, s.nodes_respell, ← List.map_append, Stmt.nodes]
  | .ifElse e s t => by
    rw [Stmt.respell, Stmt.nodes, e.nodes_respell, s.nodes_respell, t.nodes_respell,
      ← List.map_append, ← List.map_append, Stmt.nodes]
  | .loop e s i => by
    rw [Stmt.respell, Stmt.nodes, e.nodes_respell, s.nodes_respell, Expr.nodesOf?_respell,
      ← List.map_append, ← List.map_append, Stmt.nodes]
  | .function d => d.nodes_respell
  | .classDecl _ r ds => by
    rw [Stmt.respell, Stmt.nodes, FunctionDecl.nodesOfAll_respell ds, Stmt.nodes, List.map_append]
    cases r <;> rfl
  | .returning _ e => Expr.nodesOf?_respell e
  | .breaking _ | .continuing _ => rfl

theorem Stmt.nodesOfAll_respell : ∀ ss : List Stmt,
    Stmt.nodesOfAll (Stmt.respellAll f ss) = (Stmt.nodesOfAll ss).map f.node
  | [] => rfl
  | s :: rest => by
    rw [Stmt.respellAll, Stmt.nodesOfAll, s.nodes_respell, Stmt.nodesOfAll_respell rest,
      ← List.map_append, Stmt.nodesOfAll]

theorem FunctionDecl.nodes_respell : ∀ d : FunctionDecl, (d.respell f).nodes = d.nodes.map f.node
  | .mk _ _ body => Stmt.nodesOfAll_respell body

theorem FunctionDecl.nodesOfAll_respell : ∀ ds : List FunctionDecl,
    FunctionDecl.nodesOfAll (FunctionDecl.respellAll f ds) =
      (FunctionDecl.nodesOfAll ds).map f.node
  | [] => rfl
  | d :: rest => by
    rw [FunctionDecl.respellAll, FunctionDecl.nodesOfAll, d.nodes_respell,
      FunctionDecl.nodesOfAll_respell rest, ← List.map_append, FunctionDecl.nodesOfAll]

end

end Nodes

section Tokens

mutual

/-- The tokens that a tree has kept, in the order in which they stand in a text. -/
def Expr.tokens : Expr → List Token
  | .constant _ => []
  | .group inner => inner.tokens
  | .unary operator operand => operator :: operand.tokens
  | .binary left operator right | .logical left operator right =>
    left.tokens ++ operator :: right.tokens
  | .variable target => [target.name]
  | .assign target value => target.name :: value.tokens
  | .call callee paren arguments => callee.tokens ++ paren :: Expr.tokensOfAll arguments
  | .get object name => object.tokens ++ [name]
  | .set object name value => object.tokens ++ name :: value.tokens
  | .receiver keyword => [keyword.name]
  | .inherited keyword method => [keyword.name, method]

def Expr.tokensOfAll : List Expr → List Token
  | [] => []
  | e :: rest => e.tokens ++ Expr.tokensOfAll rest

end

def Expr.tokensOf? : Option Expr → List Token
  | none => []
  | some e => e.tokens

mutual

def Stmt.tokens : Stmt → List Token
  | .expression value | .print value => value.tokens
  | .varDecl name initializer => name :: Expr.tokensOf? initializer
  | .block body => Stmt.tokensOfAll body
  | .ifThen condition consequent => condition.tokens ++ consequent.tokens
  | .ifElse condition consequent alternative =>
    condition.tokens ++ consequent.tokens ++ alternative.tokens
  | .loop condition body increment =>
    condition.tokens ++ body.tokens ++ Expr.tokensOf? increment
  | .function decl => decl.tokens
  | .classDecl name superclass methods =>
    name :: superclass.toList.map (·.name) ++ FunctionDecl.tokensOfAll methods
  | .returning keyword value => keyword :: Expr.tokensOf? value
  | .breaking keyword | .continuing keyword => [keyword]

def Stmt.tokensOfAll : List Stmt → List Token
  | [] => []
  | s :: rest => s.tokens ++ Stmt.tokensOfAll rest

def FunctionDecl.tokens : FunctionDecl → List Token
  | .mk name params body => name :: params ++ Stmt.tokensOfAll body

def FunctionDecl.tokensOfAll : List FunctionDecl → List Token
  | [] => []
  | decl :: rest => decl.tokens ++ FunctionDecl.tokensOfAll rest

end

/-- Identities stay, and so do some tokens. -/
structure Respelling.Fixes (f : Respelling) (ts : List Token) : Prop where
  node : ∀ n, f.node n = n
  token : ∀ t ∈ ts, f.token t = t

variable {f : Respelling}

theorem Respelling.fixes_cons {t : Token} {ts : List Token} :
    f.Fixes (t :: ts) ↔ f.token t = t ∧ f.Fixes ts := by
  refine ⟨fun h => ⟨h.token t (.head _), h.node, fun u hu => h.token u (.tail _ hu)⟩,
    fun h => ⟨h.2.node, List.forall_mem_cons.mpr ⟨h.1, h.2.token⟩⟩⟩

theorem Respelling.fixes_append {ts us : List Token} :
    f.Fixes (ts ++ us) ↔ f.Fixes ts ∧ f.Fixes us := by
  refine ⟨fun h => ⟨⟨h.node, fun t ht => h.token t (List.mem_append_left _ ht)⟩,
    ⟨h.node, fun t ht => h.token t (List.mem_append_right _ ht)⟩⟩,
    fun h => ⟨h.1.node, List.forall_mem_append.mpr ⟨h.1.token, h.2.token⟩⟩⟩

theorem Respelling.Fixes.reference {r : Reference} {ts : List Token} (h : f.Fixes (r.name :: ts)) :
    r.respell f = r := by
  rw [Reference.respell, h.node, h.token _ (.head _)]

mutual

/-- A tree stays as it is if its tokens do. -/
theorem Expr.respell_eq_self : ∀ e : Expr, f.Fixes e.tokens → e.respell f = e
  | .constant _, _ => rfl
  | .group e, h => by rw [Expr.respell, e.respell_eq_self h]
  | .unary t e, h => by
    obtain ⟨ht, he⟩ := Respelling.fixes_cons.mp h
    rw [Expr.respell, ht, e.respell_eq_self he]
  | .binary l t r, h | .logical l t r, h => by
    obtain ⟨hl, hr⟩ := Respelling.fixes_append.mp h
    obtain ⟨ht, hr⟩ := Respelling.fixes_cons.mp hr
    rw [Expr.respell, l.respell_eq_self hl, ht, r.respell_eq_self hr]
  | .variable _, h | .receiver _, h => by rw [Expr.respell, h.reference]
  | .assign _ e, h => by
    rw [Expr.respell, h.reference, e.respell_eq_self (Respelling.fixes_cons.mp h).2]
  | .call e t es, h => by
    obtain ⟨he, hes⟩ := Respelling.fixes_append.mp h
    obtain ⟨ht, hes⟩ := Respelling.fixes_cons.mp hes
    rw [Expr.respell, e.respell_eq_self he, ht, Expr.respellAll_eq_self es hes]
  | .get e t, h => by
    obtain ⟨he, ht⟩ := Respelling.fixes_append.mp h
    rw [Expr.respell, e.respell_eq_self he, (Respelling.fixes_cons.mp ht).1]
  | .set e t v, h => by
    obtain ⟨he, hv⟩ := Respelling.fixes_append.mp h
    obtain ⟨ht, hv⟩ := Respelling.fixes_cons.mp hv
    rw [Expr.respell, e.respell_eq_self he, ht, v.respell_eq_self hv]
  | .inherited _ t, h => by
    obtain ⟨-, ht⟩ := Respelling.fixes_cons.mp h
    rw [Expr.respell, h.reference, (Respelling.fixes_cons.mp ht).1]

theorem Expr.respellAll_eq_self : ∀ es : List Expr,
    f.Fixes (Expr.tokensOfAll es) → Expr.respellAll f es = es
  | [], _ => rfl
  | e :: rest, h => by
    obtain ⟨he, hrest⟩ := Respelling.fixes_append.mp h
    rw [Expr.respellAll, e.respell_eq_self he, Expr.respellAll_eq_self rest hrest]

end

theorem Expr.respell?_eq_self (e : Option Expr) (h : f.Fixes (Expr.tokensOf? e)) :
    e.map (Expr.respell f) = e := by
  cases e with
  | none => rfl
  | some e => rw [Option.map_some, e.respell_eq_self h]

mutual

theorem Stmt.respell_eq_self : ∀ s : Stmt, f.Fixes s.tokens → s.respell f = s
  | .expression e, h | .print e, h => by rw [Stmt.respell, e.respell_eq_self h]
  | .varDecl t e, h | .returning t e, h => by
    obtain ⟨ht, he⟩ := Respelling.fixes_cons.mp h
    rw [Stmt.respell, ht, Expr.respell?_eq_self e he]
  | .block body, h => by rw [Stmt.respell, Stmt.respellAll_eq_self body h]
  | .ifThen e s, h => by
    obtain ⟨he, hs⟩ := Respelling.fixes_append.mp h
    rw [Stmt.respell, e.respell_eq_self he, s.respell_eq_self hs]
  | .ifElse e s t, h => by
    obtain ⟨hs, ht⟩ := Respelling.fixes_append.mp h
    obtain ⟨he, hs⟩ := Respelling.fixes_append.mp hs
    rw [Stmt.respell, e.respell_eq_self he, s.respell_eq_self hs, t.respell_eq_self ht]
  | .loop e s i, h => by
    obtain ⟨hs, hi⟩ := Respelling.fixes_append.mp h
    obtain ⟨he, hs⟩ := Respelling.fixes_append.mp hs
    rw [Stmt.respell, e.respell_eq_self he, s.respell_eq_self hs, Expr.respell?_eq_self i hi]
  | .function d, h => by rw [Stmt.respell, d.respell_eq_self h]
  | .classDecl t r methods, h => by
    obtain ⟨hr, hmethods⟩ := Respelling.fixes_append.mp h
    obtain ⟨ht, hr⟩ := Respelling.fixes_cons.mp hr
    rw [Stmt.respell, ht, FunctionDecl.respellAll_eq_self methods hmethods]
    cases r with
    | none => rfl
    | some r => rw [Option.map_some, Respelling.Fixes.reference hr]
  | .breaking t, h | .continuing t, h => by
    rw [Stmt.respell, (Respelling.fixes_cons.mp h).1]

theorem Stmt.respellAll_eq_self : ∀ ss : List Stmt,
    f.Fixes (Stmt.tokensOfAll ss) → Stmt.respellAll f ss = ss
  | [], _ => rfl
  | s :: rest, h => by
    obtain ⟨hs, hrest⟩ := Respelling.fixes_append.mp h
    rw [Stmt.respellAll, s.respell_eq_self hs, Stmt.respellAll_eq_self rest hrest]

theorem FunctionDecl.respell_eq_self : ∀ d : FunctionDecl, f.Fixes d.tokens → d.respell f = d
  | .mk name params body, h => by
    obtain ⟨hparams, hbody⟩ := Respelling.fixes_append.mp h
    obtain ⟨hname, hparams⟩ := Respelling.fixes_cons.mp hparams
    have hmap : params.map f.token = params :=
      (List.map_congr_left hparams.token).trans (List.map_id _)
    rw [FunctionDecl.respell, hname, hmap, Stmt.respellAll_eq_self body hbody]

theorem FunctionDecl.respellAll_eq_self : ∀ ds : List FunctionDecl,
    f.Fixes (FunctionDecl.tokensOfAll ds) → FunctionDecl.respellAll f ds = ds
  | [], _ => rfl
  | d :: rest, h => by
    obtain ⟨hd, hrest⟩ := Respelling.fixes_append.mp h
    rw [FunctionDecl.respellAll, d.respell_eq_self hd, FunctionDecl.respellAll_eq_self rest hrest]

end

end Tokens

end Lox
