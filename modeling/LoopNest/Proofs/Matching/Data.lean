import LoopNest.Proofs.Matching.Access

/-!
# Data expressions of aligned code

A data expression of a template and the one in the code have the same form, with two exceptions.
Float literals are compared as numbers, which tells all values apart but the two zeros. And a
variable of the template stands for any index expression of the code with the same affine form
(`Expr.standIns`), which the code then computes in data arithmetic. Where that arithmetic is exact
(`Expr.Exact`) and no quotient is cut off (`Expr.DividesEvenly`) it gives the value of the variable.
-/

namespace LoopNest

namespace Expr

/-! ## Literals and index expressions in data -/

/-- The float literals, in order of appearance. -/
def floats (e : Expr) : List Float :=
  e.collect fun
    | float x => [x]
    | _ => []

/-- The expressions in the code that stand for variables of the template. -/
def standIns : (template code : Expr) → List Expr
  | var _, c => [c]
  | binary _ l r, binary _ l' r' => l.standIns l' ++ r.standIns r'
  | neg e, neg e' => e.standIns e'
  | _, _ => []

/-- The accesses to buffers, in order of appearance. -/
def accesses (e : Expr) : List (String × List Expr) :=
  e.collect fun
    | read b idx => [(b, idx)]
    | _ => []

/-- Nothing is left over in any division of integers. -/
def DividesEvenly (env : Env) : Expr → Prop
  | binary op l r => l.DividesEvenly env ∧ r.DividesEvenly env ∧
      (op = .div → ∀ x y, env.wide? l = some x → env.wide? r = some y → y ∣ x)
  | neg e => e.DividesEvenly env
  | _ => True

end Expr

section exact

variable {α : Type} [Element α]

/-- An arithmetic operator on elements. -/
def Op.onElements? : Op → α → α → Option α
  | add, x, y => some (Element.add x y)
  | sub, x, y => some (Element.sub x y)
  | mul, x, y => some (Element.mul x y)
  | div, x, y => some (Element.div x y)
  | mod, x, y => some (Element.mod x y)
  | _, _, _ => none

/-- Arithmetic on the elements that stand for integers gives the element of the exact result, for
every operation in an index expression. A quotient is exact if nothing is left over. -/
def Expr.Exact (embed : Int → α) (env : Env) : Expr → Prop
  | .binary op l r => l.Exact embed env ∧ r.Exact embed env ∧
      ∀ x y z, env.wide? l = some x → env.wide? r = some y → op.onInts? x y = some z →
        (op = .div → y ∣ x) → op.onElements? (embed x) (embed y) = some (embed z)
  | .neg e => e.Exact embed env ∧ ∀ x, env.wide? e = some x → Element.neg (embed x) = embed (-x)
  | _ => True

variable {st : Store α} {env : Env}

theorem Store.data_binary {op : Op} {l r : Expr} {x y z : α} (hl : st.data env l = .ok x)
    (hr : st.data env r = .ok y) (hz : op.onElements? x y = some z) :
    st.data env (.binary op l r) = .ok z := by
  rw [Store.data, hl, hr]
  cases op <;> cases hz <;> rfl

/-- **Exact data arithmetic gives the value of an index expression.** -/
theorem Store.data_of_exact {embed : Int → α}
    (hembed : ∀ n : Word, embed n.toInt = Element.ofWord n) {e : Expr} {z : Int}
    (hz : env.wide? e = some z) (hexact : e.Exact embed env) (heven : e.DividesEvenly env) :
    st.data env e = .ok (embed z) := by
  induction e generalizing z with
  | var v =>
    simp only [Env.wide?, Option.map_eq_some_iff] at hz
    obtain ⟨n, hn, rfl⟩ := hz
    rw [Store.data, Env.index_var_eq_ok.2 hn, hembed]
    rfl
  | int n =>
    cases hz
    rw [Store.data, hembed]
  | float x | read b idx => cases hz
  | binary op l r ihl ihr =>
    obtain ⟨x, y, hx, hy, hop⟩ := Env.wide?_binary_eq_some.1 hz
    exact Store.data_binary (ihl hx hexact.1 heven.1) (ihr hy hexact.2.1 heven.2.1)
      (hexact.2.2 x y z hx hy hop fun hdiv => heven.2.2 hdiv x y hx hy)
  | neg e ih =>
    obtain ⟨x, hx, rfl⟩ := Env.wide?_neg_eq_some.1 hz
    rw [Store.data, ih hx hexact.1 heven, ← hexact.2 x hx]
    rfl

end exact

/-- Float literals that are equal as numbers, and none of them a negative zero. -/
theorem eq_of_beq_of_ne_neg_zero {x y : Float} (h : (x == y) = true) (hx : x ≠ -0) (hy : y ≠ -0) :
    x = y := by
  obtain ⟨-, -, heq | ⟨-, hneg⟩ | ⟨hneg, -⟩⟩ := Float.beq_iff_ne_nan_and_eq.1 h
  · exact heq
  · exact absurd hneg hy
  · exact absurd hneg hx

/-! ## Data expressions that match -/

namespace Matching.Relates

variable {α : Type} [Element α] {st : Store α} {embed : Int → α} {sites : String → Option Site}
  {ρ : Renaming} {inner outer tenv cenv : Env} {tsc csc : Scope}

/-- What stands for a variable has its value as an index expression. -/
theorem wide?_of_sameIndex_var {env : Env} {w : String} {n : Word} {c : Expr}
    (hw : env.value? w = some n) (hvars : ∀ v ∈ c.vars, (env.value? v).isSome)
    (hsame : (Expr.var w).sameIndex c = true) : env.wide? c = some n.toInt := by
  have hvar : env.wide? (.var w) = some n.toInt := by rw [Env.wide?, hw, Option.map_some]
  rw [← Env.wide?_eq_of_sameIndex hsame (Env.value?_isSome_of_wide? hvar) hvars, hvar]

/-- **Data expressions that match have the same value.** -/
theorem data_agrees (h : Relates ρ inner outer tsc csc tenv cenv)
    (hembed : ∀ n : Word, embed n.toInt = Element.ofWord n) {t c : Expr}
    (hal : DataAligned sites ρ t c) (ht : tsc.checkData t = []) (hc : csc.checkData c = [])
    (haddress : ∀ p tidx b cidx, (p, tidx) ∈ t.accesses → tsc.checkAccess p tidx = [] →
      csc.checkAccess b cidx = [] → AccessAligned sites ρ p tidx b cidx →
        Agrees (fun a a' => a.1.tensor = a'.1.tensor ∧ a.2 = a'.2) (tenv.address p tidx)
          (cenv.address b cidx))
    (hexact : ∀ e ∈ t.standIns c, e.Exact embed cenv)
    (heven : ∀ e ∈ t.standIns c, e.DividesEvenly cenv)
    (hzero : ∀ x ∈ t.floats, x ≠ -0) (hzero' : ∀ x ∈ c.floats, x ≠ -0) :
    Agrees Eq (st.data tenv t) (st.data cenv c) := by
  induction hal with
  | @read p b tidx cidx hal =>
    exact load_agrees (haddress p tidx b cidx (by simp [Expr.accesses, Expr.collect]) ht hc hal)
  | @float x y heq =>
    have hx : x ≠ -0 := hzero x (by simp [Expr.floats, Expr.collect])
    have hy : y ≠ -0 := hzero' y (by simp [Expr.floats, Expr.collect])
    rw [eq_of_beq_of_ne_neg_zero heq hx hy]
    exact .ok rfl
  | int => exact .ok rfl
  | @var v c hsame =>
    -- the variable stands for an index expression that the code computes with elements
    have hindex := Scope.isIndex_of_checkData ht v (by simp)
    obtain ⟨w, hw, heq⟩ := h.value v hindex
    obtain ⟨n, hn⟩ := Option.isSome_iff_exists.1 (h.template.value v hindex)
    rw [hn] at heq
    have hcode : cenv.wide? c = some n.toInt := by
      refine wide?_of_sameIndex_var heq (fun v hv => ?_) ?_
      · exact h.code.value v (Scope.isIndex_of_checkData hc v hv)
      · simpa [renamed, Expr.rebuild, hw] using hsame
    have hmem : c ∈ (Expr.var v).standIns c := by simp [Expr.standIns]
    rw [Store.data_of_exact hembed hcode (hexact c hmem) (heven c hmem), Store.data,
      Env.index_var_eq_ok.2 hn, hembed]
    exact .ok rfl
  | @binary o l r l' r' _ _ ihl ihr =>
    obtain ⟨harith, htl, htr⟩ := Scope.checkData_binary.1 ht
    obtain ⟨-, hcl, hcr⟩ := Scope.checkData_binary.1 hc
    simp only [Expr.accesses, Expr.floats, Expr.collect, Expr.standIns, List.nil_append,
      List.forall_mem_append] at haddress hexact heven hzero hzero'
    have hleft := ihl htl hcl (fun p i b j hmem => haddress p i b j (List.mem_append_left _ hmem))
      hexact.1 heven.1 hzero.1 hzero'.1
    have hright := ihr htr hcr (fun p i b j hmem => haddress p i b j (List.mem_append_right _ hmem))
      hexact.2 heven.2 hzero.2 hzero'.2
    simp only [Store.data]
    refine hleft.bind fun x _ _ _ hx => ?_
    subst hx
    refine hright.bind fun y _ _ _ hy => ?_
    subst hy
    cases o with
    | add | sub | mul | div | mod => exact .ok rfl
    | _ => cases harith
  | neg _ ih =>
    simp only [Expr.accesses, Expr.floats, Expr.collect, Expr.standIns, List.nil_append]
      at haddress hexact heven hzero hzero'
    refine (ih ht hc haddress hexact heven hzero hzero').bind fun x _ _ _ hx => ?_
    subst hx
    exact .ok rfl

end Matching.Relates

end LoopNest
