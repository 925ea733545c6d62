import Lox.Proofs.Machine.Ageing

/-! What calls take and what they start.

A call is made only when the callee can be called, with as many arguments as it takes, and while
the limit allows another call. Only then does a body begin or an object come to be, and the body
begins where each parameter is bound to the argument at its place, and nothing else is bound. -/

namespace Lox

/-- An environment binds each parameter to the argument at the same place, and nothing else. -/
structure Heap.Pairs (h : Heap) (e : EnvironmentId) (params : List Token)
    (arguments : List Value) : Prop where
  length : params.length = arguments.length
  bound : ∀ x v, h.local? e x = some v ↔
    ∃ (n : Nat) (p : Token), params[n]? = some p ∧ p.lexeme = x ∧ arguments[n]? = some v

namespace Bindings

variable {entries : List (Token × Value)} {x : String} {v : Value}

theorem get?_foldl_insert_other (hx : ∀ entry ∈ entries, entry.1.lexeme ≠ x) :
    ∀ b : Bindings Value,
      (entries.foldl (fun b entry => b.insert entry.1.lexeme entry.2) b).get? x = b.get? x := by
  induction entries with
  | nil => exact fun _ => rfl
  | cons entry rest ih =>
    intro b
    obtain ⟨hne, hrest⟩ := List.forall_mem_cons.mp hx
    rw [List.foldl_cons, ih hrest, get?_insert, if_neg hne]

/-- Of entries with different names each one is found. -/
theorem get?_foldl_insert_mem {p : Token} (hd : (entries.map (·.1.lexeme)).Nodup)
    (hp : (p, v) ∈ entries) : ∀ b : Bindings Value,
      (entries.foldl (fun b entry => b.insert entry.1.lexeme entry.2) b).get? p.lexeme =
        some v := by
  induction entries with
  | nil => cases hp
  | cons entry rest ih =>
    intro b
    obtain ⟨hfresh, hrest⟩ := List.nodup_cons.mp hd
    rcases List.mem_cons.mp hp with rfl | hp
    · have hother : ∀ entry ∈ rest, entry.1.lexeme ≠ p.lexeme := by
        intro entry he heq
        exact hfresh (List.mem_map.mpr ⟨entry, he, heq⟩)
      rw [List.foldl_cons, get?_foldl_insert_other hother, get?_insert, if_pos rfl]
    · exact ih hrest hp _

theorem get?_foldl_insert (hd : (entries.map (·.1.lexeme)).Nodup) :
    (entries.foldl (fun b entry => b.insert entry.1.lexeme entry.2) empty).get? x = some v ↔
      ∃ p, (p, v) ∈ entries ∧ p.lexeme = x := by
  constructor
  · intro hv
    by_cases hx : ∃ entry ∈ entries, entry.1.lexeme = x
    · obtain ⟨⟨p, w⟩, hp, rfl⟩ := hx
      obtain rfl : w = v := Option.some.inj ((get?_foldl_insert_mem hd hp empty).symm.trans hv)
      exact ⟨p, hp, rfl⟩
    · have hother : ∀ entry ∈ entries, entry.1.lexeme ≠ x := fun entry he heq => hx ⟨entry, he, heq⟩
      rw [get?_foldl_insert_other hother] at hv
      cases hv
  · rintro ⟨p, hp, rfl⟩
    exact get?_foldl_insert_mem hd hp empty

end Bindings

/-- Parameters with different names, as many as there are arguments, are paired with them. -/
theorem Heap.pairs_entered (h : Heap) {f : Closure} {arguments : List Value}
    (hd : (f.decl.params.map (·.lexeme)).Nodup) (hl : f.decl.params.length = arguments.length) :
    (h.entered f arguments).Pairs ⟨h.environments.size⟩ f.decl.params arguments := by
  refine ⟨hl, fun x v => ?_⟩
  have hnames : (f.decl.params.zip arguments).map (·.1.lexeme) = f.decl.params.map (·.lexeme) := by
    have hfst : (f.decl.params.zip arguments).map Prod.fst = f.decl.params :=
      List.map_fst_zip (by omega)
    exact List.map_map.symm.trans (congrArg (List.map (·.lexeme)) hfst)
  rw [local?, (environment?_of_push (h.entered_environments f arguments)).2, Option.bind_some,
    Bindings.get?_foldl_insert (hnames ▸ hd)]
  constructor
  · rintro ⟨p, hp, hx⟩
    obtain ⟨n, hn⟩ := List.mem_iff_getElem?.mp hp
    obtain ⟨hparam, hargument⟩ := List.getElem?_zip_eq_some.mp hn
    exact ⟨n, p, hparam, hx, hargument⟩
  · rintro ⟨n, p, hparam, hx, hargument⟩
    exact ⟨p, List.mem_iff_getElem?.mpr ⟨n, List.getElem?_zip_eq_some.mpr ⟨hparam, hargument⟩⟩, hx⟩

namespace Frame

@[simp] theorem calls_cons (frame : Frame) (fs : List Frame) :
    calls (frame :: fs) = calls fs + if frame.isCall then 1 else 0 := List.countP_cons

end Frame

namespace Machine

variable (m : Machine) (fs : List Frame)

theorem frames_finish (r : Except RuntimeError Value) : (m.finish fs r).frames = fs := by
  cases r <;> rfl

theorem frames_finishProperty (r : Except RuntimeError (Value × Property)) :
    (m.finishProperty fs r).frames = fs := by
  rcases r with e | ⟨receiver, v | f⟩ <;> rfl

theorem calls_evaluate (e : Expr) : Frame.calls (m.evaluate fs e).frames = Frame.calls fs := by
  cases e with
  | «variable» r => rw [evaluate, frames_finish]
  | receiver r => rw [evaluate, frames_finish]
  | inherited r t => rw [evaluate, frames_finishProperty]
  | _ => simp [evaluate, Frame.isCall]

theorem calls_runBlock (outer : EnvironmentId) (body : List Stmt) :
    Frame.calls (m.runBlock fs outer body).frames = Frame.calls fs := by
  cases body <;> simp [runBlock, Frame.isCall]

theorem calls_execute (s : Stmt) : Frame.calls (m.execute fs s).frames = Frame.calls fs := by
  cases s with
  | varDecl t e => cases e <;> simp [execute, Frame.isCall]
  | block body => exact calls_runBlock _ fs _ body
  | classDecl t r methods =>
    rw [execute]
    cases m.superclass r <;> rfl
  | returning t e => cases e <;> simp [execute, Frame.isCall]
  | _ => simp [execute, Frame.isCall]

theorem calls_resumeValue {v : Value} {frame : Frame} (h : frame.attempt? v = none) :
    Frame.calls (m.resumeValue fs v frame).frames = Frame.calls fs := by
  cases frame with
  | unary t => rw [resumeValue, frames_finish]
  | binaryRight left t => rw [resumeValue, frames_finish]
  | logical t right =>
    rw [resumeValue]
    split <;> rfl
  | assign r =>
    rw [resumeValue, finishAssign]
    cases m.holder? r <;> rfl
  | callee paren arguments =>
    cases arguments with
    | nil => cases h
    | cons e rest => simp [resumeValue, evaluateArguments, Frame.isCall]
  | argument callee paren done rest =>
    cases rest with
    | nil => cases h
    | cons e rest => simp [resumeValue, evaluateArguments, Frame.isCall]
  | get t => rw [resumeValue, frames_finishProperty]
  | setObject t e => cases v <;> simp [resumeValue, Frame.isCall]
  | branch s alternative =>
    simp only [resumeValue]
    split
    · rfl
    · cases alternative <;> rfl
  | loopTest loop =>
    rw [resumeValue]
    split <;> simp [Frame.isCall]
  | _ => simp [resumeValue, testAgain, Frame.isCall]

theorem calls_resume {completion : Completion} {frame : Frame}
    (h : ∀ v, completion = .value v → frame.attempt? v = none) :
    Frame.calls (m.resume fs frame completion).frames ≤ Frame.calls fs := by
  cases frame with
  | block rest outer =>
    cases completion with
    | normal => exact Nat.le_of_eq (m.calls_runBlock fs outer rest)
    | _ => exact Nat.le_refl _
  | call result => cases completion <;> exact Nat.le_refl _
  | loopBody loop =>
    obtain ⟨condition, body, increment⟩ := loop
    cases completion <;> cases increment <;>
      simp [resume, afterBody, testAgain, resumeValue, Frame.isCall]
  | _ =>
    cases completion with
    | value v => exact Nat.le_of_eq (m.calls_resumeValue fs (h v rfl))
    | _ => exact Nat.le_refl _

end Machine

namespace Config

variable {c : Config}

/-- Without a call that is attempted, no body begins. -/
theorem calls_step (h : c.attempt? = none) :
    Frame.calls c.step.frames ≤ Frame.calls c.frames := by
  obtain ⟨m, control, fs⟩ := c
  cases control with
  | eval e => exact Nat.le_of_eq (m.calls_evaluate fs e)
  | exec s => exact Nat.le_of_eq (m.calls_execute fs s)
  | done completion =>
    cases fs with
    | nil => exact Nat.le_refl _
    | cons frame fs =>
      have hattempt : ∀ v, completion = .value v → frame.attempt? v = none := by
        rintro v rfl
        exact h
      have hcons : Frame.calls fs ≤ Frame.calls (frame :: fs) := by simp
      exact Nat.le_trans (m.calls_resume fs hattempt) hcons

/-- Objects are only made by calls that are attempted. -/
theorem objects_step (h : c.attempt? = none) :
    c.step.machine.heap.objects.size = c.machine.heap.objects.size := by
  have hw := c.writes_step
  generalize c.step.machine.heap = h' at hw
  cases hw with
  | classDecl => rw [Machine.objects_declareClass]
  | called ha => cases ha.symm.trans h
  | object ha => cases ha.symm.trans h
  | initialized ha => cases ha.symm.trans h
  | field => simp [Heap.setField]
  | _ => rfl

end Config

end Lox
