import LoopNest.Proofs.Trace.Basic
import LoopNest.Validity

/-!
# Names in scope

`Stmt.WellScopedAll` says of a block, along its structure, what `Proc.problems` checks statement by
statement: all its names stand for something in scope, and nothing hides a visible name. `Env.Fits`
says that an environment binds what a scope promises.
-/

namespace LoopNest

open Scope

variable {op : Op} {l r : Expr} {d : Decl} {b' : Block}

/-! ## Expressions -/

namespace Scope

variable {sc : Scope} {e : Expr} {v : String}

theorem checkIndex_binary :
    sc.checkIndex (.binary op l r) = [] ↔
      op.isArithmetic = true ∧ sc.checkIndex l = [] ∧ sc.checkIndex r = [] := by
  rw [checkIndex]
  split
  next harith => simp [harith]
  next harith => simp [harith]

/-- A condition is a conjunction of conditions or a comparison of index expressions. -/
theorem of_checkCondition (h : sc.checkCondition e = []) :
    (∃ l r, e = .binary .and l r ∧ sc.checkCondition l = [] ∧ sc.checkCondition r = []) ∨
      ∃ op l r, e = .binary op l r ∧ op.isComparison = true ∧ sc.checkIndex l = [] ∧
        sc.checkIndex r = [] := by
  unfold checkCondition at h
  split at h
  next l r => exact .inl ⟨l, r, rfl, List.append_eq_nil_iff.1 h⟩
  next op l r _ =>
    split at h
    next hop => exact .inr ⟨op, l, r, rfl, hop, List.append_eq_nil_iff.1 h⟩
    · cases h
  · cases h

theorem checkIndex_var :
    sc.checkIndex (.var v) = [] ↔ sc.buffer? v = none ∧ sc.isIndex v = true := by
  rw [checkIndex]
  cases sc.buffer? v with
  | some d => simp
  | none => by_cases h : sc.isIndex v = true <;> simp [h]

/-- The variables of an index expression are index expressions. -/
theorem checkIndex_var_of_mem (h : sc.checkIndex e = []) (hv : v ∈ e.vars) :
    sc.checkIndex (.var v) = [] := by
  induction e with
  | var w =>
    obtain rfl : v = w := by simpa using hv
    exact h
  | int n => simp at hv
  | float x | read b idx => cases h
  | binary op l r ihl ihr =>
    obtain ⟨-, hl, hr⟩ := checkIndex_binary.1 h
    rw [Expr.vars_binary, List.mem_append] at hv
    exact hv.elim (ihl hl) (ihr hr)
  | neg e ih =>
    rw [Expr.vars_neg] at hv
    exact ih h hv

theorem isIndex_of_checkIndex (h : sc.checkIndex e = []) : ∀ v ∈ e.vars, sc.isIndex v = true :=
  fun _ hv => (checkIndex_var.1 (checkIndex_var_of_mem h hv)).2

theorem checkData_var : sc.checkData (.var v) = [] ↔ sc.isIndex v = true := by
  simp [checkData]

theorem checkData_binary :
    sc.checkData (.binary op l r) = [] ↔
      op.isArithmetic = true ∧ sc.checkData l = [] ∧ sc.checkData r = [] := by
  rw [checkData]
  split
  next harith => simp [harith]
  next harith => simp [harith]

/-- An access is to a buffer in scope, with as many index expressions as it has dimensions. -/
theorem checkAccess_eq_nil {buf : String} {idx : List Expr} : sc.checkAccess buf idx = [] ↔
    (∃ d, sc.buffer? buf = some d ∧ d.rank = idx.length) ∧ ∀ e ∈ idx, sc.checkIndex e = [] := by
  rw [checkAccess, List.append_eq_nil_iff, List.flatMap_eq_nil_iff]
  refine and_congr ?_ Iff.rfl
  cases sc.buffer? buf with
  | none => simp
  | some d => by_cases hrank : d.rank = idx.length <;> simp [hrank]

/-- A window is of a buffer in scope, with as many dimensions. -/
theorem checkWindow_eq_nil {w : Window} : sc.checkWindow w = [] ↔
    (∃ d, sc.buffer? w.buf = some d ∧ d.rank = w.dims.length) ∧
      ∀ e ∈ w.exprs, sc.checkIndex e = [] := by
  rw [checkWindow, List.append_eq_nil_iff, List.flatMap_eq_nil_iff]
  refine and_congr ?_ Iff.rfl
  cases sc.buffer? w.buf with
  | none => simp
  | some d => by_cases hrank : d.rank = w.dims.length <;> simp [hrank]

theorem isIndex_of_checkData (h : sc.checkData e = []) : ∀ v ∈ e.vars, sc.isIndex v = true := by
  induction e with
  | var w =>
    intro v hv
    obtain rfl : v = w := by simpa using hv
    exact checkData_var.1 h
  | int n => simp
  | float x => simp [Expr.vars, Expr.collect]
  | read b idx =>
    intro v hv
    rw [Expr.vars, Expr.collect, Expr.collectAll_eq_flatMap, List.nil_append,
      List.mem_flatMap] at hv
    obtain ⟨e, he, hv⟩ := hv
    exact isIndex_of_checkIndex ((checkAccess_eq_nil.1 h).2 e he) v hv
  | binary op l r ihl ihr =>
    obtain ⟨-, hl, hr⟩ := checkData_binary.1 h
    intro v hv
    rw [Expr.vars_binary, List.mem_append] at hv
    exact hv.elim (ihl hl v) (ihr hr v)
  | neg e ih =>
    rw [Expr.vars_neg]
    exact ih h

/-- In index expressions no two literals are the same without being equal. -/
theorem eq_of_same (h : sc.checkIndex e = []) {e' : Expr} (hsame : e'.same e = true) : e' = e := by
  induction e generalizing e' with
  | var w | int n =>
    cases e' <;> simp_all [Expr.same]
  | float x | read b idx => cases h
  | binary op l r ihl ihr =>
    obtain ⟨-, hl, hr⟩ := checkIndex_binary.1 h
    cases e' with
    | binary op' l' r' =>
      simp only [Expr.same, Bool.and_eq_true, beq_iff_eq] at hsame
      rw [hsame.1.1, ihl hl hsame.1.2, ihr hr hsame.2]
    | _ => simp [Expr.same] at hsame
  | neg e ih =>
    cases e' with
    | neg e' =>
      rw [Expr.same] at hsame
      rw [ih h hsame]
    | _ => simp [Expr.same] at hsame

theorem checkStmt_loop {templates : Templates} {h : Header} {body : Block} :
    sc.checkStmt templates (.loop h body) = [] ↔
      sc.checkIndex h.bound = [] ∧ sc.isVisible h.var = false := by
  rw [checkStmt, List.append_eq_nil_iff]
  refine and_congr Iff.rfl ?_
  cases sc.isVisible h.var <;> simp

theorem checkStmt_alloc {templates : Templates} :
    sc.checkStmt templates (.alloc d) = [] ↔ sc.isVisible d.name = false ∧
      d.mem.supports d.ty = true ∧ ∀ e ∈ d.shape, sc.checkIndex e = [] := by
  rw [checkStmt, checkDecl, List.append_eq_nil_iff, List.append_eq_nil_iff, List.flatMap_eq_nil_iff]
  refine and_congr ?_ (and_congr ?_ Iff.rfl)
  · cases sc.isVisible d.name <;> simp
  · cases d.mem.supports d.ty <;> simp

/-- A parameter is new in the scope of those before it, and its declaration fits there. -/
theorem of_checkParams {isTemplate : Bool} {q : Param} {params : List Param}
    (h : checkParams isTemplate sc (q :: params) = []) :
    sc.isVisible q.name = false ∧ (∀ d, q = .buffer d → sc.checkDecl d = []) ∧
      checkParams isTemplate (sc.addParam q) params = [] := by
  unfold checkParams at h
  rw [List.append_eq_nil_iff, List.append_eq_nil_iff] at h
  refine ⟨?_, ?_, h.2⟩
  · by_contra hq
    simp [hq] at h
  · rintro d rfl
    exact (List.append_eq_nil_iff.1 h.1.2).2

/-- A call passes windows of buffers in scope, one for each parameter of a template that is known. -/
theorem of_checkCall {find : String → Option Proc} {name : String} {args : List Window}
    (h : sc.checkCall (some find) name args = []) :
    (∀ w ∈ args, sc.checkWindow w = []) ∧ ∃ t, find name = some t ∧
      t.params.length = args.length ∧
        ∀ wp ∈ args.zip t.params, sc.checkArgument name wp.1 wp.2 = [] := by
  obtain ⟨hwindows, h⟩ := List.append_eq_nil_iff.1 h
  refine ⟨List.flatMap_eq_nil_iff.1 hwindows, ?_⟩
  simp only at h
  split at h
  · cases h
  next t ht =>
    split at h
    · cases h
    next hcount => exact ⟨t, ht, not_ne_iff.1 hcount, List.flatMap_eq_nil_iff.1 h⟩

/-- The variables of the expression are indices of the scope, and what it reads are buffers. -/
structure Knows (sc : Scope) (e : Expr) : Prop where
  vars : ∀ v ∈ e.vars, sc.isIndex v = true
  buffers : ∀ b ∈ e.buffers, (sc.buffer? b).isSome

theorem buffers_of_checkIndex (h : sc.checkIndex e = []) : e.buffers = [] := by
  induction e with
  | var v | int n => rfl
  | float x | read b idx => cases h
  | binary op l r ihl ihr =>
    obtain ⟨-, hl, hr⟩ := checkIndex_binary.1 h
    show l.buffers ++ r.buffers = []
    rw [ihl hl, ihr hr, List.append_nil]
  | neg e ih => exact ih h

theorem Knows.of_checkIndex (h : sc.checkIndex e = []) : sc.Knows e where
  vars := isIndex_of_checkIndex h
  buffers := by simp [buffers_of_checkIndex h]

theorem Knows.binary (hl : sc.Knows l) (hr : sc.Knows r) : sc.Knows (.binary op l r)  where
  vars := by
    rw [Expr.vars_binary]
    exact List.forall_mem_append.2 ⟨hl.vars, hr.vars⟩
  buffers := by
    show ∀ b ∈ l.buffers ++ r.buffers, _
    exact List.forall_mem_append.2 ⟨hl.buffers, hr.buffers⟩

theorem Knows.of_checkData (h : sc.checkData e = []) : sc.Knows e where
  vars := isIndex_of_checkData h
  buffers := by
    induction e with
    | read b idx =>
      obtain ⟨⟨d, hd, -⟩, hidx⟩ := checkAccess_eq_nil.1 h
      rw [Expr.buffers, Expr.collect, Expr.collectAll_eq_flatMap]
      refine List.forall_mem_append.2 ⟨List.forall_mem_singleton.2 (by simp [hd]), fun c hc => ?_⟩
      obtain ⟨i, hi, hc⟩ := List.mem_flatMap.1 hc
      exact (Knows.of_checkIndex (hidx i hi)).buffers c hc
    | binary op l r ihl ihr =>
      obtain ⟨-, hl, hr⟩ := checkData_binary.1 h
      show ∀ b ∈ l.buffers ++ r.buffers, _
      exact List.forall_mem_append.2 ⟨ihl hl, ihr hr⟩
    | neg e ih => exact ih h
    | _ => simp [Expr.buffers, Expr.collect]

theorem Knows.of_checkCondition (h : sc.checkCondition e = []) : sc.Knows e := by
  induction e with
  | binary op l r ihl ihr =>
    obtain ⟨l', r', heq, hl, hr⟩ | ⟨op', l', r', heq, -, hl, hr⟩ := Scope.of_checkCondition h
    · cases heq
      exact (ihl hl).binary (ihr hr)
    · cases heq
      exact (of_checkIndex hl).binary (of_checkIndex hr)
  | _ => cases h

/-- The scope knows the expressions of a statement that passes its check. -/
theorem knows_of_checkStmt {s : Stmt} (h : sc.checkStmt none s = []) :
    ∀ e ∈ s.exprs, sc.Knows e := by
  cases s with
  | loop hd body =>
    exact List.forall_mem_singleton.2 (Knows.of_checkIndex (checkStmt_loop.1 h).1)
  | guard c body => exact List.forall_mem_singleton.2 (Knows.of_checkCondition h)
  | store u b idx rhs =>
    obtain ⟨haccess, hrhs⟩ := List.append_eq_nil_iff.1 h
    refine List.forall_mem_append.2 ⟨fun i hi => ?_, ?_⟩
    · exact Knows.of_checkIndex ((checkAccess_eq_nil.1 haccess).2 i hi)
    · exact List.forall_mem_singleton.2 (Knows.of_checkData hrhs)
  | alloc d => exact fun e he => Knows.of_checkIndex ((checkStmt_alloc.1 h).2.2 e he)
  | call t args =>
    intro e he
    obtain ⟨w, hw, he⟩ := List.mem_flatMap.1 he
    have hwindow := List.flatMap_eq_nil_iff.1 (List.append_eq_nil_iff.1 h).1 w hw
    exact Knows.of_checkIndex ((checkWindow_eq_nil.1 hwindow).2 e he)

end Scope

/-! ## Statements -/

mutual

/-- The statement and those nested in it are well formed in the scope. -/
def Stmt.WellScoped (templates : Scope.Templates) (sc : Scope) : Stmt → Prop
  | .loop h body =>
    sc.checkStmt templates (.loop h body) = [] ∧ Stmt.WellScopedAll templates (sc.addVar h.var) body
  | .guard e body =>
    sc.checkStmt templates (.guard e body) = [] ∧ Stmt.WellScopedAll templates sc body
  | .store u b idx rhs => sc.checkStmt templates (.store u b idx rhs) = []
  | .alloc d => sc.checkStmt templates (.alloc d) = []
  | .call t args => sc.checkStmt templates (.call t args) = []

/-- The same for statements in order. -/
def Stmt.WellScopedAll (templates : Scope.Templates) (sc : Scope) : List Stmt → Prop
  | [] => True
  | s :: rest => s.WellScoped templates sc ∧ Stmt.WellScopedAll templates (sc.after s) rest

end

variable {templates : Scope.Templates} {sc : Scope} {b : Block} {x : String}

theorem Stmt.WellScoped.check {s : Stmt} (h : s.WellScoped templates sc) :
    sc.checkStmt templates s = [] := by
  cases s with
  | loop hd body | guard e body => exact h.1
  | _ => exact h

/-- The scope for the statements after a block. -/
def Scope.afterAll (sc : Scope) (b : Block) : Scope := b.foldl Scope.after sc

theorem Stmt.wellScopedAll_append :
    WellScopedAll templates sc (b ++ b') ↔
      WellScopedAll templates sc b ∧ WellScopedAll templates (sc.afterAll b) b' := by
  induction b generalizing sc with
  | nil => exact (and_iff_right trivial).symm
  | cons s rest ih =>
    rw [List.cons_append, WellScopedAll, WellScopedAll, ih, and_assoc]
    exact Iff.rfl

theorem Stmt.WellScopedAll.append_left (h : WellScopedAll templates sc (b ++ b')) :
    WellScopedAll templates sc b :=
  (wellScopedAll_append.1 h).1

theorem Stmt.wellScopedAll_iff {path : Path} {i : Nat} :
    Stmt.WellScopedAll templates sc b ↔
      ∀ s ∈ Stmt.scopedFrom sc path i b, s.scope.checkStmt templates s.stmt = [] := by
  induction b using Block.induction generalizing sc path i with
  | nil => simp [Stmt.WellScopedAll, Stmt.scopedFrom]
  | cons s rest ihs ihrest =>
    rw [Stmt.scopedFrom, List.forall_mem_append, ← ihrest, Stmt.WellScopedAll]
    refine and_congr ?_ Iff.rfl
    cases s with
    | loop hd body | guard e body =>
      rw [Stmt.scoped, List.forall_mem_cons, ← ihs body rfl, Stmt.WellScoped]
    | store u b idx rhs | alloc d | call t args =>
      rw [Stmt.scoped, List.forall_mem_singleton, Stmt.WellScoped]

/-- **A kernel without problems** is one with well-formed parameters whose body is well scoped. -/
theorem Proc.problems_eq_nil {p : Proc} :
    p.problems templates = [] ↔ checkParams p.isTemplate {} p.params = [] ∧
      Stmt.WellScopedAll templates p.scope p.body := by
  have hscoped : Stmt.WellScopedAll templates p.scope p.body ↔
      ∀ s ∈ p.scoped, s.scope.checkStmt templates s.stmt = [] := Stmt.wellScopedAll_iff
  rw [Proc.problems, List.append_eq_nil_iff, List.map_eq_nil_iff, List.flatMap_eq_nil_iff, hscoped]
  simp only [List.map_eq_nil_iff]

theorem Proc.wellScoped {p : Proc} (h : p.problems templates = []) :
    Stmt.WellScopedAll templates p.scope p.body := (Proc.problems_eq_nil.1 h).2

/-! ## Environments -/

theorem Scope.isVisible_addVar (sc : Scope) (v x : String) :
    (sc.addVar v).isVisible x = true ↔ x = v ∨ sc.isVisible x = true := by
  simp only [isVisible, isIndex, addVar, List.contains_cons, Bool.or_eq_true, beq_iff_eq]
  tauto

theorem Scope.isVisible_addBuffer (sc : Scope) (d : Decl) (x : String) :
    (sc.addBuffer d).isVisible x = true ↔ x = d.name ∨ sc.isVisible x = true := by
  simp only [isVisible, isIndex, addBuffer, List.any_cons, Bool.or_eq_true,
    decide_eq_true_eq, eq_comm (a := d.name)]
  tauto

theorem Scope.isVisible_addParam (sc : Scope) (p : Param) (x : String) :
    (sc.addParam p).isVisible x = true ↔ x = p.name ∨ sc.isVisible x = true := by
  cases p with
  | size n =>
    simp only [addParam, isVisible, isIndex, List.contains_cons, Bool.or_eq_true,
      beq_iff_eq, Param.name]
    tauto
  | buffer d => exact sc.isVisible_addBuffer d x

theorem Scope.isIndex_addVar (sc : Scope) (v x : String) :
    (sc.addVar v).isIndex x = true ↔ x = v ∨ sc.isIndex x = true := by
  simp only [isIndex, addVar, List.contains_cons, Bool.or_eq_true, beq_iff_eq]
  tauto

theorem Scope.isVisible_of_isIndex (h : sc.isIndex x = true) : sc.isVisible x = true := by
  simp [isVisible, h]

theorem Scope.isVisible_of_buffer? (h : sc.buffer? x = some d) : sc.isVisible x = true := by
  have hname : d.name = x := by simpa using List.find?_some h
  have hany : sc.buffers.any (·.name = x) = true :=
    List.any_eq_true.2 ⟨d, List.mem_of_find?_eq_some h, by simpa using hname⟩
  rw [isVisible, hany, Bool.or_true]

theorem Scope.buffer?_eq_none (h : sc.isVisible x = false) : sc.buffer? x = none := by
  cases hd : sc.buffer? x with
  | none => rfl
  | some d =>
    rw [isVisible_of_buffer? hd] at h
    cases h

theorem Scope.buffer?_addBuffer (sc : Scope) (d : Decl) (x : String) :
    (sc.addBuffer d).buffer? x = if d.name = x then some d else sc.buffer? x := by
  simp only [buffer?, addBuffer, List.find?_cons]
  by_cases h : d.name = x
  · simp [h]
  · simp [h]

theorem Scope.buffer?_addParam (sc : Scope) (q : Param) (x : String) :
    (sc.addParam q).buffer? x = (if q.name = x then q.decl? else none).or (sc.buffer? x) := by
  cases q with
  | size n => simp [addParam, buffer?, Param.decl?]
  | buffer d =>
    rw [addParam, buffer?_addBuffer]
    by_cases hd : d.name = x <;> simp [Param.name, Param.decl?, hd]

theorem Scope.buffer?_after (sc : Scope) (s : Stmt) (x : String) :
    (sc.after s).buffer? x = (s.decl?.filter (·.name = x)).or (sc.buffer? x) := by
  cases s with
  | alloc d =>
    rw [after, buffer?_addBuffer]
    by_cases hd : d.name = x <;> simp [Stmt.decl?, hd, Option.filter]
  | _ => rfl

theorem Scope.buffer?_inside (sc : Scope) (s : Stmt) (x : String) :
    (sc.inside s).buffer? x = sc.buffer? x := by
  cases s <;> rfl

/-- The parameters of a kernel are in scope in its body, the last one first. -/
theorem Proc.scope_eq (p : Proc) :
    p.scope = ⟨p.sizes.reverse, [], p.bufferParams.reverse⟩ := by
  simp only [scope, sizes, bufferParams]
  induction p.params using List.reverseRecOn with
  | nil => rfl
  | append_singleton params q ih =>
    rw [List.foldl_concat, ih]
    cases q <;> simp [addParam, addBuffer, Param.decl?]

/-- The scope of a template's body holds no index names. -/
theorem Proc.isIndex_scope {t : Proc} (h : ∀ q ∈ t.params, ∃ d, q = .buffer d) (v : String) :
    t.scope.isIndex v = false := by
  have hsizes : t.sizes = [] := List.filterMap_eq_nil_iff.2 fun q hq => by
    obtain ⟨d, rfl⟩ := h q hq
    rfl
  rw [scope_eq, hsizes]
  rfl

/-- The environment has a value for every index name of the scope, and binds no name that is not
visible in it. -/
structure Env.Fits (sc : Scope) (env : Env) : Prop where
  value : ∀ v, sc.isIndex v = true → (env.value? v).isSome
  visible : ∀ x, (env.lookup x).isSome → sc.isVisible x = true

namespace Env.Fits

variable {sc : Scope} {env : Env}

theorem lookup_eq_none (h : env.Fits sc) {x : String} (hx : sc.isVisible x = false) :
    env.lookup x = none := by
  rw [← Option.not_isSome_iff_eq_none]
  intro hsome
  rw [h.visible x hsome] at hx
  cases hx

theorem bind_index (h : env.Fits sc) {sc' : Scope} {x : String} (n : Word)
    (hindex : ∀ v, sc'.isIndex v = true → v = x ∨ sc.isIndex v = true)
    (hvisible : ∀ v, v = x ∨ sc.isVisible v = true → sc'.isVisible v = true) :
    Env.Fits sc' (env.bind x (.index n)) where
  value v hv := by
    rw [value?_bind]
    split
    · rfl
    next hne => exact h.value v ((hindex v hv).resolve_left hne)
  visible y hy := by
    rw [lookup_bind] at hy
    refine hvisible y ?_
    split at hy
    next heq => exact .inl heq
    · exact .inr (h.visible y hy)

/-- The variable of a loop. -/
theorem bind_var (h : env.Fits sc) (x : String) (n : Word) :
    Env.Fits (sc.addVar x) (env.bind x (.index n)) :=
  h.bind_index n (fun v => (sc.isIndex_addVar x v).1) fun v => (sc.isVisible_addVar x v).2

theorem bind_size (h : env.Fits sc) (x : String) (n : Word) :
    Env.Fits (sc.addParam (.size x)) (env.bind x (.index n)) :=
  h.bind_index n (fun v hv => by simpa [addParam, isIndex, or_assoc] using hv)
    fun v => (sc.isVisible_addParam (.size x) v).2

/-- A buffer under a new name. -/
theorem bind_buffer (h : env.Fits sc) (hnew : sc.isVisible d.name = false) (v : View) :
    Env.Fits (sc.addBuffer d) (env.bind d.name (.buffer v)) where
  value x hx := by
    have hindex : sc.isIndex x = true := hx
    have hne : x ≠ d.name := fun heq => by
      rw [heq] at hindex
      simp [isVisible_of_isIndex hindex] at hnew
    rw [value?_bind, if_neg hne]
    exact h.value x hindex
  visible x hx := by
    rw [lookup_bind] at hx
    rw [isVisible_addBuffer]
    split at hx
    next heq => exact .inl heq
    · exact .inr (h.visible x hx)

end Env.Fits

end LoopNest
