/-
  LineLisp.Scope — scopes and the heap that holds them. A scope is a frame of bindings and
  the scope around it, if any; the scopes around a scope were all made before it, so its
  chain ends. A name is looked up along the chain, the nearest frame first, and defined in
  the scope's own frame. The heap also counts the closures that were made.
-/

import LineLisp.Value

namespace LineLisp

structure Frame where
  outer : Option ScopeId
  bindings : List (String × Value)

namespace Frame

def empty (outer : Option ScopeId) : Frame := ⟨outer, []⟩

def get? (f : Frame) (name : String) : Option Value := f.bindings.lookup name

def contains (f : Frame) (name : String) : Bool := f.bindings.any (·.1 = name)

def names (f : Frame) : List String := f.bindings.map (·.1)

/-- The frame with a name bound to a value, in place of its earlier binding. -/
def define (f : Frame) (name : String) (v : Value) : Frame :=
  { f with bindings := (name, v) :: f.bindings.filter (·.1 ≠ name) }

theorem lookup_filter_ne {name m : String} (h : m ≠ name) (bs : List (String × Value)) :
    (bs.filter (·.1 ≠ name)).lookup m = bs.lookup m := by
  induction bs with
  | nil => rfl
  | cons b bs ih =>
    rw [List.lookup_cons, List.filter_cons]
    split
    · rw [List.lookup_cons, ih]
    · next hb =>
      have hm : (m == b.1) = false := by rw [beq_eq_false_iff_ne]; rintro rfl; simp [h] at hb
      rw [ih, hm]

/-- A definition changes what its name is bound to and nothing else. -/
theorem get?_define (f : Frame) (name m : String) (v : Value) :
    (f.define name v).get? m = if m = name then some v else f.get? m := by
  unfold get? define
  rw [List.lookup_cons]
  by_cases h : m = name
  · simp [h]
  · rw [lookup_filter_ne h, if_neg h, beq_eq_false_iff_ne.mpr h]

theorem contains_eq_isSome (f : Frame) (name : String) :
    f.contains name = (f.get? name).isSome := by
  unfold contains get?
  induction f.bindings with
  | nil => rfl
  | cons b bs ih =>
    rw [List.any_cons, List.lookup_cons, ih]
    by_cases h : name = b.1
    · simp [h]
    · simp [beq_eq_false_iff_ne.mpr h, Ne.symm h]

theorem contains_define {f : Frame} {m : String} (h : f.contains m) (name : String) (v : Value) :
    (f.define name v).contains m := by
  rw [contains_eq_isSome] at h ⊢
  rw [get?_define]
  split
  · rfl
  · exact h

/-- The bindings in order, a later one of the same name in place of an earlier one. -/
def ofBindings (outer : Option ScopeId) (bindings : List (String × Value)) : Frame :=
  bindings.foldl (fun f (name, v) => f.define name v) (empty outer)

/-- The circle's ratio and the primitives, under their names. -/
def global : Frame :=
  ofBindings none (("pi", .number .pi) :: Primitive.all.map fun p => (p.name, .primitive p))

end Frame

structure Heap where
  frames : Array Frame
  closures : Nat

namespace Heap

/-- The scope that programs start in. -/
def globalScope : ScopeId := 0

/-- The global scope alone. -/
def initial : Heap := ⟨#[.global], 0⟩

/-- The frames of a scope and of the scopes around it, the nearest first. -/
def chain (h : Heap) (id : ScopeId) : List Frame :=
  match h.frames[id]? with
  | none => []
  | some f => f :: match f.outer with
    | none => []
    | some outer => if outer < id then chain h outer else []
termination_by id

/-- What a name is bound to in the nearest frame that binds it. -/
def get? (h : Heap) (id : ScopeId) (name : String) : Option Value :=
  (h.chain id).findSome? (·.get? name)

def contains (h : Heap) (id : ScopeId) (name : String) : Bool :=
  (h.chain id).any (·.contains name)

/-- The names that are visible from a scope, in no particular order. -/
def names (h : Heap) (id : ScopeId) : List String := (h.chain id).flatMap (·.names)

/-- Binds a name in the scope's own frame. -/
def define (h : Heap) (id : ScopeId) (name : String) (v : Value) : Heap :=
  { h with frames := h.frames.modify id (·.define name v) }

theorem frames_define (h : Heap) (id i : ScopeId) (name : String) (v : Value) :
    (h.define id name v).frames[i]? =
      if id = i then h.frames[i]?.map (·.define name v) else h.frames[i]? :=
  Array.getElem?_modify

/-- A new scope, and the heap with it. -/
def push (h : Heap) (f : Frame) : ScopeId × Heap :=
  (h.frames.size, { h with frames := h.frames.push f })

theorem frames_push {h : Heap} {i : ScopeId} {g : Frame} (hg : h.frames[i]? = some g) (f : Frame) :
    (h.push f).2.frames[i]? = some g := by
  obtain ⟨hi, hg⟩ := Array.getElem?_eq_some_iff.mp hg
  rw [push, Array.getElem?_push_lt hi, hg]

/-- A new closure, and the heap that counts it. -/
def makeClosure (h : Heap) (params : List String) (body : Value) (scope : ScopeId) :
    Value × Heap :=
  (.closure h.closures params body scope, { h with closures := h.closures + 1 })

end Heap

end LineLisp
