import LoopNest.Proofs.Fresh
import LoopNest.Proofs.Pinned
import LoopNest.Proofs.RowMajor
import LoopNest.Proofs.Trace.Coverage

/-!
# Rounds without a dependence are apart

In the body of a kernel every name stands for a whole tensor of its own, so an element is hit by two
accesses only if they name the same buffer and have the same indices. With the loops between the two
accesses and the environment outside, pinned variables then have the same value for both
(`Access.Hits.pinned_agree`). So two rounds that differ in a variable pinned by every conflicting
pair of accesses touch no common element that one of them writes (`Stmt.apart_of_pinned`).
-/

namespace LoopNest

open Access LoopNest.Affine

/-- The dimensions of a whole tensor. -/
abbrev ViewDim.Whole (dims : List ViewDim) : Prop := ∀ d ∈ dims, ∃ extent, d = .free 0 extent

abbrev Env.ViewsWhole (env : Env) : Prop := ∀ x v, env.view? x = some v → ViewDim.Whole v.dims

/-- Every buffer name stands for the whole of an existing tensor, and no two names for the same. -/
structure Env.Plain (env : Env) (lay : Layout) : Prop where
  lt : env.ViewsBelow lay.length
  whole : env.ViewsWhole
  inj : ∀ x y v w, env.view? x = some v → env.view? y = some w → v.tensor = w.tensor → x = y

namespace Env.Plain

variable {env : Env} {lay : Layout}

theorem nil (lay : Layout) : Env.Plain [] lay := by
  constructor <;> simp [ViewsBelow, ViewsWhole, Env.view?]

theorem bind_index (h : env.Plain lay) (x : String) (n : Word) :
    Env.Plain (env.bind x (.index n)) lay where
  lt y v hv := h.lt y v (view?_bind_index.1 hv).2
  whole y v hv := h.whole y v (view?_bind_index.1 hv).2
  inj y z v w hv hw := h.inj y z v w (view?_bind_index.1 hv).2 (view?_bind_index.1 hw).2

theorem bind_whole (h : env.Plain lay) (x : String) (shape : List Nat) (s : Slot) :
    Env.Plain (env.bind x (.buffer (.whole lay.length x shape))) (lay ++ [s]) := by
  refine ⟨fun y v hv => ?_, fun y v hv => ?_, fun y z v w hv hw hvw => ?_⟩
  · rw [List.length_append, List.length_singleton]
    obtain ⟨-, rfl⟩ | ⟨-, hv⟩ := view?_bind_buffer.1 hv
    · exact Nat.lt_succ_self _
    · exact Nat.lt_succ_of_lt (h.lt y v hv)
  · obtain ⟨-, rfl⟩ | ⟨-, hv⟩ := view?_bind_buffer.1 hv
    · intro d hd
      obtain ⟨n, -, rfl⟩ := List.mem_map.1 hd
      exact ⟨_, rfl⟩
    · exact h.whole y v hv
  · obtain ⟨rfl, rfl⟩ | ⟨-, hv⟩ := view?_bind_buffer.1 hv
    · obtain ⟨rfl, -⟩ | ⟨-, hw⟩ := view?_bind_buffer.1 hw
      · rfl
      · have := h.lt z w hw
        simp only [View.whole] at hvw
        omega
    · obtain ⟨-, rfl⟩ | ⟨-, hw⟩ := view?_bind_buffer.1 hw
      · have := h.lt y v hv
        simp only [View.whole] at hvw
        omega
      · exact h.inj y z v w hv hw hvw

end Env.Plain

/-! ## Indices of accesses to one element -/

/-- Accesses to the same coordinates of a whole tensor have the same indices. -/
theorem Within.value_eq {value value' : Expr → Option Word} {dims : List ViewDim}
    {ds ds' : List (Option Expr)} {cs : List Word} (hdims : ViewDim.Whole dims)
    (h : Within value dims ds cs) (h' : Within value' dims ds' cs) {e e' : Expr}
    (hmem : (some e, some e') ∈ ds.zip ds') : ∃ n, value e = some n ∧ value' e' = some n := by
  induction h generalizing ds' with
  | nil => cases hmem
  | fixed _ _ =>
    obtain ⟨_, h⟩ := hdims _ (.head _)
    cases h
  | point hi hx _ ih =>
    obtain ⟨_, hoffset⟩ := hdims _ (.head _)
    cases hoffset
    have hrest := fun d hd => hdims d (.tail _ hd)
    cases h' with
    | point hi' hx' htail =>
      obtain hmem | hmem := List.mem_cons.1 hmem
      · cases hmem
        refine ⟨_, hi, ?_⟩
        rw [hi']
        exact congrArg some (Int64.toInt_inj.1 (by omega))
      · exact ih hrest htail hmem
    | any htail => exact ih hrest htail ((List.mem_cons.1 hmem).resolve_left nofun)
  | any _ ih =>
    have hrest := fun d hd => hdims d (.tail _ hd)
    cases h' with
    | point _ _ htail | any htail =>
      exact ih hrest htail ((List.mem_cons.1 hmem).resolve_left nofun)

theorem Env.Inner.trans {n : Nat} {outer loops : List Enclosing} {env mid inner : Env}
    (h : Env.Inner n outer env mid) (h' : Env.Inner n loops mid inner) :
    Env.Inner n (outer ++ loops) env inner where
  view x v hv hlt := h.view x v (h'.view x v hv hlt) hlt
  value x k hk hx := by
    simp only [List.map_append, List.mem_append, not_or] at hx
    exact h.value x k (h'.value x k hk hx.2) hx.1
  range x hx := by
    by_cases hin : x ∈ loops.map (·.1)
    · obtain ⟨count, hmem, hr⟩ := h'.range x hin
      exact ⟨count, List.mem_append_right _ hmem, hr⟩
    · simp only [List.map_append, List.mem_append, hin, or_false] at hx
      obtain ⟨count, hmem, hr⟩ := h.range x hx
      exact ⟨count, List.mem_append_left _ hmem, fun k hk => hr k (h'.value x k hk hin)⟩

section pairs

variable {ev : Evaluator} {lay : Layout} {env inner inner' : Env} {region : List Enclosing}
  {a b : Access} {p : Place}

/-- A variable of an expression that can be evaluated is a loop variable within its range, or it has
the same value outside. -/
theorem Env.Inner.valuation_range {n : Nat} {loops loops' : List Enclosing}
    (h : Env.Inner n loops env inner) (hsub : ∀ l ∈ loops, l ∈ loops') {u : String}
    (hclear : u ∈ loops'.map (·.1) → env.value? u = none) {k m : Word}
    (hk : inner.value? u = some k) (hm : tripCount? loops' u = some (some m)) :
    0 ≤ inner.valuation u ∧ inner.valuation u < m.toInt := by
  have hloop : u ∈ loops'.map (·.1) := by
    by_contra hnot
    rw [tripCount?_eq_none.2 hnot] at hm
    cases hm
  have hmem : u ∈ loops.map (·.1) := by
    by_contra hnot
    have hout := h.value u k hk hnot
    rw [hclear hloop] at hout
    cases hout
  obtain ⟨count, hcount, hr⟩ := h.range u hmem
  obtain ⟨j, rfl, hj⟩ := le_of_tripCount? hm (hsub _ hcount)
  have hrk := hr k hk
  have := hrk.2 j rfl
  rw [Env.valuation_of_value? hk]
  omega

theorem Access.of_mem_sharedForms {form : Affine} (h : form ∈ sharedForms a b) :
    ∃ e e' g, (some e, some e') ∈ a.dims.zip b.dims ∧ ofExpr? e = some form ∧
      ofExpr? e' = some g ∧ form.same g = true := by
  obtain ⟨⟨d, d'⟩, hd, h⟩ := List.mem_filterMap.1 h
  simp only [option_bind_eq_some] at h
  obtain ⟨e, rfl, f, hf, e', rfl, g, hg, h⟩ := h
  split at h
  · rename_i hsame
    cases h
    exact ⟨e, e', g, hd, hf, hg, hsame⟩
  · cases h

/-- A form of two index expressions with the same value is level, and its variables have values. -/
theorem Access.level_of_eval (hinner : Env.Inner lay.length (region ++ a.loops) env inner)
    (hinner' : Env.Inner lay.length (region ++ b.loops) env inner')
    (hclear : ∀ x ∈ (region ++ a.loops ++ b.loops).map (·.1), env.value? x = none)
    {e e' : Expr} {form g : Affine} {n : Word} (he : ev.eval inner e = some n)
    (he' : ev.eval inner' e' = some n) (hform : ofExpr? e = some form)
    (hg : ofExpr? e' = some g) (hsame : form.same g = true) :
    Level (region ++ a.loops ++ b.loops) inner.valuation inner'.valuation form ∧
      ∀ u ∈ form.coefficients.map (·.1), (∃ k, inner.value? u = some k) ∧
        ∃ k, inner'.value? u = some k := by
  have hcoeff : form.coefficients = g.coefficients := by
    simp only [Affine.same, Bool.and_eq_true, beq_iff_eq] at hsame
    exact hsame.2
  have hvalued : ∀ u ∈ form.coefficients.map (·.1), (∃ k, inner.value? u = some k) ∧
      ∃ k, inner'.value? u = some k := fun u hu =>
    ⟨Option.isSome_iff_exists.1 (ev.value?_isSome he u (coefficients_vars hform u hu)),
      Option.isSome_iff_exists.1 (ev.value?_isSome he' u (coefficients_vars hg u (hcoeff ▸ hu)))⟩
  refine ⟨⟨(ofExpr?_nodup hform).1, ?_, fun u d hu hnone => ?_, fun u d hu m hm => ?_⟩, hvalued⟩
  · rw [ofExpr?_value hform (ev.to_wide he), value_of_same hsame, ofExpr?_value hg (ev.to_wide he')]
  · -- not a loop variable: both values are the one outside
    obtain ⟨⟨k, hk⟩, k', hk'⟩ := hvalued u (List.mem_map.2 ⟨_, hu, rfl⟩)
    have hnot := tripCount?_eq_none.1 hnone
    simp only [List.map_append, List.mem_append, not_or] at hnot
    have hout := hinner.value u k hk (by
      rw [List.map_append, List.mem_append, not_or]
      exact hnot.1)
    have hout' := hinner'.value u k' hk' (by
      rw [List.map_append, List.mem_append, not_or]
      exact ⟨hnot.1.1, hnot.2⟩)
    rw [Env.valuation_of_value? hk, Env.valuation_of_value? hk', Option.mem_unique hout hout']
  · obtain ⟨⟨k, hk⟩, k', hk'⟩ := hvalued u (List.mem_map.2 ⟨_, hu, rfl⟩)
    refine ⟨hinner.valuation_range (fun l hl => List.mem_append_left _ hl) (hclear u) hk hm,
      hinner'.valuation_range (fun l hl => ?_) (hclear u) hk' hm⟩
    simp only [List.mem_append] at hl ⊢
    exact hl.imp_left .inl

/-- **Accesses to one element agree on what they pin.** -/
theorem Access.Hits.pinned_agree (hplain : env.Plain lay) (hp : p.1 < lay.length)
    (hinner : Env.Inner lay.length (region ++ a.loops) env inner)
    (hinner' : Env.Inner lay.length (region ++ b.loops) env inner')
    (hclear : ∀ x ∈ (region ++ a.loops ++ b.loops).map (·.1), env.value? x = none)
    (ha : a.Hits ev inner lay p) (hb : b.Hits ev inner' lay p) :
    a.buf = b.buf ∧ ∀ x ∈ Access.pinned region a b,
      ∃ k, inner.value? x = some k ∧ inner'.value? x = some k := by
  obtain ⟨v, slot, cs, hv, htensor, hslot, hoff, hwithin⟩ := ha
  obtain ⟨v', slot', cs', hv', htensor', hslot', hoff', hwithin'⟩ := hb
  -- both name the same buffer and give it the same coordinates
  have hview := hinner.view _ v hv (htensor ▸ hp)
  have hview' := hinner'.view _ v' hv' (htensor' ▸ hp)
  have hname := hplain.inj _ _ v v' hview hview' (htensor.trans htensor'.symm)
  obtain rfl : v = v' := Option.mem_unique hview (hname ▸ hview')
  obtain rfl : slot = slot' := Option.mem_unique hslot hslot'
  obtain ⟨-, rfl⟩ := Tensor.offsetFrom?_inj hoff hoff'
  have hforms : ∀ form ∈ sharedForms a b,
      Level (region ++ a.loops ++ b.loops) inner.valuation inner'.valuation form ∧
        ∀ u ∈ form.coefficients.map (·.1), (∃ k, inner.value? u = some k) ∧
          ∃ k, inner'.value? u = some k := by
    intro form hform
    obtain ⟨e, e', g, hd, hf, hg, hsame⟩ := of_mem_sharedForms hform
    obtain ⟨n, hn, hn'⟩ := hwithin.value_eq (hplain.whole _ v hview) hwithin' hd
    exact level_of_eval hinner hinner' hclear hn hn' hf hg hsame
  refine ⟨hname, fun x hx => ?_⟩
  obtain ⟨hagree, form, hform, hmem⟩ :=
    pinRounds_agree (fun form hform => (hforms form hform).1) _ x hx
  obtain ⟨⟨k, hk⟩, k', hk'⟩ := (hforms form hform).2 x hmem
  rw [Env.valuation_of_value? hk, Env.valuation_of_value? hk'] at hagree
  exact ⟨k, hk, by rw [hk', Int64.toInt_inj.1 hagree]⟩

end pairs

/-! ## Rounds -/

/-- The loops around an access are those given and loops of the block. -/
theorem Access.loops_of_mem_ofBlock {b : Block} {loops : List Enclosing} {a : Access}
    (h : a ∈ ofBlock loops b) :
    ∃ inside, a.loops = loops ++ inside ∧ ∀ x ∈ inside.map (·.1), x ∈ b.binders := by
  induction b using Block.induction generalizing loops with
  | nil => simp [ofBlock] at h
  | cons s rest ihs ihrest =>
    rw [ofBlock, List.mem_append] at h
    rw [Block.binders_cons]
    obtain h | h := h
    · cases s with
      | loop hd body =>
        obtain ⟨inside, hloops, hin⟩ := ihs body rfl h
        refine ⟨(hd.var, hd.bound.constant?) :: inside, by simp [hloops], fun x hx => ?_⟩
        simp only [List.map_cons, List.mem_cons] at hx
        simp only [Stmt.nested, List.filterMap_cons, Stmt.binds?, List.cons_append, List.mem_cons,
          List.mem_append]
        exact hx.imp_right fun hx => .inl (hin x hx)
      | guard e body =>
        obtain ⟨inside, hloops, hin⟩ := ihs body rfl h
        refine ⟨inside, hloops, fun x hx => ?_⟩
        simp only [Stmt.nested, List.filterMap_cons, Stmt.binds?, List.mem_append]
        exact .inl (hin x hx)
      | store u b idx rhs =>
        refine ⟨[], ?_, by simp⟩
        rw [List.append_nil]
        obtain h | h := List.mem_append.1 h
        · rw [reads, Expr.collect_eq_flatMap, List.mem_flatMap] at h
          obtain ⟨e, -, he⟩ := h
          split at he
          · rw [List.mem_singleton.1 he]
          · cases he
        · rw [List.mem_singleton.1 h]
      | alloc d => simp [ofStmt] at h
      | call t args =>
        obtain ⟨w, -, rfl⟩ := List.mem_map.1 h
        exact ⟨[], by simp [ofWindow], by simp⟩
    · obtain ⟨inside, hloops, hin⟩ := ihrest h
      exact ⟨inside, hloops, fun x hx => List.mem_append_right _ (hin x hx)⟩

/-- **Rounds without a dependence are apart.** The blocks run in environments that extend `env` by
the variables of the loops in `region`, and every pair of accesses that could be in conflict pins one
of these variables that has different values for the two. -/
theorem Stmt.apart_of_pinned {ev : Evaluator} {c : Catalog} {callee : Callee}
    (hc : callee.Closed) (hconf : callee.Confined) {lay : Layout} {region : List Enclosing}
    {env env₁ env₂ e₁ e₂ : Env} {b₁ b₂ : Block} {acts₁ acts₂ : List Action}
    (hplain : env.Plain lay) (h₁ : Env.Inner lay.length region env env₁)
    (h₂ : Env.Inner lay.length region env env₂)
    (hclear : ∀ x, x ∈ region.map (·.1) ∨ x ∈ b₁.binders ∨ x ∈ b₂.binders → env.lookup x = none)
    (hregion : ∀ x ∈ region.map (·.1), x ∉ b₁.binders ∧ x ∉ b₂.binders)
    (t₁ : Stmt.traceAll ev c callee env₁ lay b₁ = some (acts₁, e₁))
    (t₂ : Stmt.traceAll ev c callee env₂ lay b₂ = some (acts₂, e₂))
    (hdep : ∀ a₁ ∈ ofBlock [] b₁, ∀ a₂ ∈ ofBlock [] b₂, a₁.conflicts a₂ = true →
      a₁.buf ∉ b₁.allocated ++ b₂.allocated →
        ∃ x ∈ region.map (·.1), env₁.value? x ≠ env₂.value? x ∧
          (x ∈ Access.pinned region a₁ a₂ ∨ x ∈ Access.pinned region a₂ a₁)) :
    Apart lay acts₁ acts₂ := by
  have hvalue : ∀ x, x ∈ region.map (·.1) ∨ x ∈ b₁.binders ∨ x ∈ b₂.binders →
      env.value? x = none := fun x hx => by simp [Env.value?, hclear x hx]
  have hcov₁ := Stmt.traceAll_covered hc hconf b₁ (Env.Inner.refl lay.length env₁)
    (List.append_nil lay).symm t₁
  have hcov₂ := Stmt.traceAll_covered hc hconf b₂ (Env.Inner.refl lay.length env₂)
    (List.append_nil lay).symm t₂
  have hpair : ∀ (w₁ w₂ : Bool) (p : Place), p.1 < lay.length → (w₁ || w₂) = true →
      p ∈ places w₁ acts₁ → p ∉ places w₂ acts₂ := by
    intro w₁ w₂ p hp hw hp₁ hp₂
    obtain ⟨a₁, ha₁, hwrite₁, inner₁, hin₁, hit₁⟩ := hcov₁ w₁ p hp hp₁
    obtain ⟨a₂, ha₂, hwrite₂, inner₂, hin₂, hit₂⟩ := hcov₂ w₂ p hp hp₂
    obtain ⟨loops₁, hloops₁, hbind₁⟩ := loops_of_mem_ofBlock ha₁
    obtain ⟨loops₂, hloops₂, hbind₂⟩ := loops_of_mem_ofBlock ha₂
    rw [List.nil_append] at hloops₁ hloops₂
    subst hloops₁ hloops₂
    have hout₁ := h₁.trans hin₁
    have hout₂ := h₂.trans hin₂
    obtain ⟨hname, hagree⟩ := Hits.pinned_agree hplain hp hout₁ hout₂ (fun x hx => by
      simp only [List.map_append, List.mem_append] at hx
      exact hvalue x (hx.elim (·.imp_right fun h => .inl (hbind₁ x h))
        fun h => .inr (.inr (hbind₂ x h)))) hit₁ hit₂
    obtain ⟨-, hagree'⟩ := Hits.pinned_agree hplain hp hout₂ hout₁ (fun x hx => by
      simp only [List.map_append, List.mem_append] at hx
      exact hvalue x (hx.elim (·.imp_right fun h => .inr (hbind₂ x h))
        fun h => .inr (.inl (hbind₁ x h)))) hit₂ hit₁
    -- the buffer was there before, so no block allocates one of its name
    obtain ⟨v, -, -, hv, htensor, -⟩ := hit₁
    have hview := hout₁.view _ v hv (htensor ▸ hp)
    have hlocal : a₁.buf ∉ b₁.allocated ++ b₂.allocated := by
      intro hmem
      have hnone := hclear a₁.buf (.inr ((List.mem_append.1 hmem).imp
        Block.mem_binders_of_allocated Block.mem_binders_of_allocated))
      simp [Env.view?, hnone] at hview
    have hconflict : a₁.conflicts a₂ = true := by
      simp only [conflicts, hname, BEq.rfl, Bool.true_and]
      cases w₁ with
      | true => simp [hwrite₁ rfl]
      | false => simp [hwrite₂ (by simpa using hw)]
    obtain ⟨x, hx, hne, hpinned⟩ := hdep a₁ ha₁ a₂ ha₂ hconflict hlocal
    obtain ⟨k, hk₁, hk₂⟩ : ∃ k, inner₁.value? x = some k ∧ inner₂.value? x = some k := by
      obtain hpinned | hpinned := hpinned
      · exact hagree x hpinned
      · obtain ⟨k, hk₂, hk₁⟩ := hagree' x hpinned
        exact ⟨k, hk₁, hk₂⟩
    obtain ⟨hnot₁, hnot₂⟩ := hregion x hx
    exact hne ((hin₁.value x k hk₁ fun h => hnot₁ (hbind₁ x h)).trans
      (hin₂.value x k hk₂ fun h => hnot₂ (hbind₂ x h)).symm)
  exact fun p hp => ⟨hpair true false p hp rfl, fun h₂ h₁ => hpair false true p hp rfl h₁ h₂⟩

end LoopNest
