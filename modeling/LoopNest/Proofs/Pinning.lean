import LoopNest.Proofs.Trace.Independence

/-!
# Pinning is sound for all integers

What pinned variables promise does not depend on machine words or on a run. Take any two assignments
of integers to variables that keep to the ranges of the loops and agree outside of them. If the
indices of two accesses, worked out without a bound, are the same, then the assignments agree on
every variable that the accesses pin (`Access.eq_of_mem_pinned`).
-/

namespace LoopNest

variable {loops : List Enclosing} {v : String}

/-- The result of an arithmetic operator on integers. Only division by zero has none. -/
def Op.exactValue? : Op → Int → Int → Option Int
  | add, x, y => some (x + y)
  | sub, x, y => some (x - y)
  | mul, x, y => some (x * y)
  | div, x, y => if y = 0 then none else some (x / y)
  | mod, x, y => if y = 0 then none else some (x % y)
  | _, _, _ => none

/-- The value of an index expression under an assignment of integers, without overflow. -/
def Expr.exactValue? (σ : String → Int) : Expr → Option Int
  | .var v => some (σ v)
  | .int n => some n.toInt
  | .neg e => (e.exactValue? σ).map (- ·)
  | .binary op l r => do op.exactValue? (← l.exactValue? σ) (← r.exactValue? σ)
  | .float _ => none
  | .read _ _ => none

theorem Op.exactValue?_of_onInts? {op : Op} {x y z : Int} (h : op.onInts? x y = some z) :
    op.exactValue? x y = some z := by
  cases op with
  | add | sub | mul => exact h
  | div =>
    obtain ⟨hy, rfl, -⟩ := quotient?_eq_some.1 h
    rw [exactValue?, if_neg hy]
  | mod =>
    obtain ⟨q, hq, rfl⟩ := Option.map_eq_some_iff.1 h
    rw [exactValue?, if_neg (quotient?_eq_some.1 hq).1]
  | _ => cases h

/-- An expression with a form has the value of the form, whatever its variables are. -/
theorem Affine.exactValue?_of_ofExpr? {e : Expr} {a : Affine} (h : ofExpr? e = some a)
    (σ : String → Int) : e.exactValue? σ = some (a.value σ) := by
  induction e generalizing a with
  | var v =>
    obtain rfl := Option.some.inj h
    rw [Expr.exactValue?, value_ofVar]
  | int n =>
    obtain rfl := Option.some.inj h
    rw [Expr.exactValue?, value_ofWord]
  | neg e ih =>
    obtain ⟨b, hb, h⟩ := ofExpr?_neg.1 h
    simp [Expr.exactValue?, ih hb, (scale?_eq_some h).2]
  | binary op l r ihl ihr =>
    obtain ⟨b, c, hb, hc, h⟩ := ofExpr?_binary.1 h
    rw [Expr.exactValue?, ihl hb, ihr hc]
    exact Op.exactValue?_of_onInts? (h.value σ)
  | float x | read b idx => simp [ofExpr?] at h

namespace Access

/-- Every variable of the loops is in the range of the loop that runs most often. Where one of its
loops has no constant count, it may have any value. -/
def Ranged (loops : List Enclosing) (σ : String → Int) : Prop :=
  ∀ v n, (v, some n) ∈ loops → (v, none) ∉ loops →
    (∀ m, (v, some m) ∈ loops → m.toInt ≤ n.toInt) → 0 ≤ σ v ∧ σ v < n.toInt

/-- Every index of `a` under `σ` is the index of `b` in the same dimension under `τ`. Where one of
the two has an interval there is nothing to compare. -/
def SameIndices (a b : Access) (σ τ : String → Int) : Prop :=
  ∀ x y, (some x, some y) ∈ a.dims.zip b.dims → x.exactValue? σ = y.exactValue? τ

/-- A trip count is the count of one of the loops. -/
theorem mem_of_tripCount? {n : Word} (h : tripCount? loops v = some (some n)) :
    (v, some n) ∈ loops := by
  have hfold : ∀ {l : List Enclosing} {acc : Option Word}, l.foldl (fun acc x => do
      return max (← acc) (← x.2)) acc = some n → acc = some n ∨ ∃ u, (u, some n) ∈ l := by
    intro l
    induction l with
    | nil => exact fun h => .inl h
    | cons x l ih =>
      intro acc hacc
      obtain ⟨u, d⟩ := x
      simp only [List.foldl_cons] at hacc
      obtain hmax | ⟨w, hw⟩ := ih hacc
      · simp only [option_bind_eq_some, Option.pure_def, Option.some.injEq] at hmax
        obtain ⟨a, rfl, b, rfl, hab⟩ := hmax
        have hdef : max a b = if a ≤ b then b else a := rfl
        rw [hdef] at hab
        split at hab
        · exact .inr ⟨u, by simp [hab]⟩
        · exact .inl (by rw [hab])
      · exact .inr ⟨w, .tail _ hw⟩
  unfold tripCount? at h
  split at h
  · cases h
  · rename_i first rest hfilter
    -- all the loops that were folded are loops over `v`
    have hmem : ∀ l ∈ first :: rest, l ∈ loops ∧ l.1 = v := by
      intro l hl
      rw [← hfilter, List.mem_filter, decide_eq_true_eq] at hl
      exact hl
    obtain hfirst | ⟨u, hu⟩ := hfold (Option.some.inj h)
    · obtain ⟨hin, hv⟩ := hmem first (.head _)
      rwa [← hv, ← hfirst]
    · obtain ⟨hin, rfl⟩ := hmem _ (.tail _ hu)
      exact hin

theorem Ranged.of_tripCount? {σ : String → Int} (h : Ranged loops σ) {n : Word}
    (hn : tripCount? loops v = some (some n)) : 0 ≤ σ v ∧ σ v < n.toInt := by
  refine h v n (mem_of_tripCount? hn) (fun hnone => ?_) fun m hm => ?_
  · obtain ⟨m, hm, -⟩ := le_of_tripCount? hn hnone
    cases hm
  · obtain ⟨m', hm', hle⟩ := le_of_tripCount? hn hm
    cases hm'
    exact hle

/-- **Pinning is sound.** Accesses with the same indices agree on all that they pin. -/
theorem eq_of_mem_pinned {region : List Enclosing} {a b : Access} {σ τ : String → Int}
    (hagree : ∀ v, v ∉ (region ++ a.loops ++ b.loops).map (·.1) → σ v = τ v)
    (hσ : Ranged (region ++ a.loops ++ b.loops) σ) (hτ : Ranged (region ++ a.loops ++ b.loops) τ)
    (hsame : SameIndices a b σ τ) : ∀ v ∈ pinned region a b, σ v = τ v := by
  have hlevel : ∀ form ∈ sharedForms a b, Level (region ++ a.loops ++ b.loops) σ τ form := by
    intro form hform
    obtain ⟨x, y, g, hxy, hx, hy, hg⟩ := of_mem_sharedForms hform
    have hvalue : form.value σ = g.value τ := by
      have := hsame x y hxy
      rwa [Affine.exactValue?_of_ofExpr? hx, Affine.exactValue?_of_ofExpr? hy, Option.some.injEq] at this
    exact {
      nodup := (Affine.ofExpr?_nodup hx).1
      value := by rw [hvalue, Affine.value_of_same hg]
      free := fun u d _ hu => hagree u (tripCount?_eq_none.1 hu)
      range := fun u d _ n hn => ⟨hσ.of_tripCount? hn, hτ.of_tripCount? hn⟩ }
  intro v hv
  exact (pinRounds_agree hlevel _ v hv).1

/-- A write to `C[8 * jo + ji]` in the two loops of a tile. -/
def tiled : Access where
  buf := "C"
  dims := [some (.binary .add (.binary .mul (.int 8) (.var "jo")) (.var "ji"))]
  write := true
  loops := [("jo", some 4), ("ji", some 8)]

/-- Element 19 of the tiles, in round `k` of a loop around them. -/
def tiledAt (k : Int) (v : String) : Int :=
  if v = "jo" then 2 else if v = "ji" then 3 else if v = "k" then k else 0

theorem tiled_pinned : pinned [("k", none)] tiled tiled = ["ji", "jo"] ∧
    tiledAt 0 "k" ≠ tiledAt 5 "k" ∧
    ∀ v ∈ pinned [("k", none)] tiled tiled, tiledAt 0 v = tiledAt 5 v := by
  have hranged : ∀ k, Ranged ([("k", none)] ++ tiled.loops ++ tiled.loops) (tiledAt k) := by
    intro k v n hv _ _
    have hjo : tiledAt k "jo" = 2 := by simp [tiledAt]
    have hji : tiledAt k "ji" = 3 := by simp [tiledAt]
    simp only [tiled, List.cons_append, List.nil_append, List.mem_cons, Prod.mk.injEq,
      Option.some.injEq, reduceCtorEq, and_false, false_or, List.not_mem_nil, or_false] at hv
    obtain ⟨rfl, rfl⟩ | ⟨rfl, rfl⟩ | ⟨rfl, rfl⟩ | ⟨rfl, rfl⟩ := hv <;> simp only [hjo, hji] <;>
      decide
  refine ⟨by decide, by decide, eq_of_mem_pinned (fun v hv => ?_) (hranged 0) (hranged 5) ?_⟩
  · have hk : v ≠ "k" := fun h => hv (by simp [h])
    simp [tiledAt, hk]
  · intro x y hxy
    simp only [tiled, List.zip_cons_cons, List.zip_nil_right, List.mem_singleton, Prod.mk.injEq,
      Option.some.injEq] at hxy
    obtain ⟨rfl, rfl⟩ := hxy
    decide

end Access

end LoopNest
