import LoopNest.Eval.Exec

/-!
# Running kernels

A kernel is run on named sizes and tensors, and the tensors are updated. They keep what was written
before an error, and a run that does not start leaves them alone.
-/

namespace LoopNest

/-- Sizes and tensors by name. No name occurs twice in either list. -/
structure Args (α : Type) where
  sizes : List (String × Word)
  buffers : List (String × Tensor α)

/-- Put a value under a name, in the place of what was there. -/
def putNamed {β : Type} (name : String) (b : β) : List (String × β) → List (String × β)
  | [] => [(name, b)]
  | (n, old) :: rest => if n = name then (n, b) :: rest else (n, old) :: putNamed name b rest

namespace Args

variable {α : Type} [Element α]

/-- The environment in which the given sizes are known. -/
def sizeEnv (sizes : List (String × Word)) : Env := sizes.map fun (n, v) => (n, .index v)

/-- Tensors for buffers; `fill` gives the element of a buffer at an offset. -/
def allocate (env : Env) (fill : Decl → Nat → α) (buffers : List (String × Tensor α)) :
    List Decl → Except Failure (List (String × Tensor α))
  | [] => .ok buffers
  | d :: rest => do
    let shape ← env.shape d
    let t ← noOverflow (Tensor.build? d.ty shape (fill d))
    allocate env fill (putNamed d.name t buffers) rest

/-- Arguments for a kernel with tensors of the right shapes for the given sizes. -/
def forProc (p : Proc) (sizes : List (String × Word)) (fill : Decl → Nat → α) :
    Except Failure (Args α) :=
  match p.sizes.find? fun n => (sizes.lookup n).isNone with
  | some n => failWith (.missingSize n)
  | none => do return ⟨sizes, ← allocate (sizeEnv sizes) fill [] p.bufferParams⟩

/-- What the parameters of a kernel stand for. -/
structure Frame (α : Type) where
  env : Env
  store : Store α
  /-- The names of the tensors in the store. -/
  names : List String

/-- Bind a parameter. Every tensor can be taken only once. -/
def bindParam (args : Args α) (f : Frame α) : Param → Except Failure (Frame α)
  | .size n =>
    match args.sizes.lookup n with
    | none => failWith (.missingSize n)
    | some v =>
      if v < 1 then failWith (.invalidSize n v)
      else .ok { f with env := f.env.bind n (.index v) }
  | .buffer d => do
    let shape ← f.env.shape d
    match if f.names.contains d.name then none else args.buffers.lookup d.name with
    | none => failWith (.missingBuffer d.name)
    | some t =>
      if t.shape = shape ∧ t.ty = d.ty then
        return ⟨f.env.bind d.name (.buffer (.whole f.store.length d.name shape)), f.store ++ [t],
          f.names ++ [d.name]⟩
      else failWith (.wrongTensor d.name d.ty shape (t.ty, t.shape))

/-- Bind the parameters in order. -/
def bindParams (args : Args α) (params : List Param) : Except Failure (Frame α) :=
  params.foldlM (bindParam args) ⟨[], [], []⟩

/-- Give the tensors back under their names. -/
def giveBack (args : Args α) (names : List String) (store : Store α) : Args α :=
  let updated := names.zip store
  { args with buffers := args.buffers.map fun (n, t) => (n, (updated.lookup n).getD t) }

end Args

/-- How deep calls may be nested. Calls of registered templates that go deeper never end. -/
def Catalog.callDepth (c : Catalog) : Nat := 4 * c.size + 8

/-- Run a kernel. The arguments are given back also when it fails. -/
def Proc.run {α : Type} [Element α] (p : Proc) (c : Catalog) (args : Args α) :
    Except Failure Unit × Args α :=
  match args.bindParams p.params with
  | .error e => (.error e, args)
  | .ok frame =>
    let (result, store) := (Block.exec c c.callDepth frame.env p.body).run.run frame.store
    (result, args.giveBack frame.names store)

end LoopNest
