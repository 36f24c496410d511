import LoopNest.Proofs.Contract.Calls
import LoopNest.Proofs.Reached
import LoopNest.Proofs.Safety

/-!
# Windows of calls have the declared shapes

Whether a window may be passed for a parameter is decided before any run, from the affine forms of
its bounds (`Scope.extent?`). A run takes the window at the values of the bounds, and in what it takes
it from. Both agree: in every state in which a run comes to a call, the view for each parameter has
the rank and the extents that are declared (`Proc.Reaches.call_shapes`).
-/

namespace LoopNest

open Evaluator

variable {env : Env} {w : Window}

/-- The extents of the dimensions that are free. -/
def View.extents (v : View) : List Word :=
  v.dims.filterMap fun
    | .free _ extent => some extent
    | .fixed _ => none

theorem View.length_extents (v : View) : v.extents.length = v.rank := by
  obtain ⟨tensor, name, dims⟩ := v
  show (dims.filterMap _).length = (dims.filter _).length
  induction dims with
  | nil => rfl
  | cons d dims ih =>
    cases d with
    | fixed c | free offset extent => simpa [List.filterMap_cons] using ih

/-- An extent that is constant is the distance of the bounds in every environment. -/
theorem Scope.toInt_extent? {lo hi : Expr} {n : Word} (h : extent? lo hi = some n) {a b : Word}
    (ha : env.index lo = .ok a) (hb : env.index hi = .ok b) : n.toInt = b.toInt - a.toInt := by
  rw [extent?_eq, Option.bind_eq_some_iff] at h
  obtain ⟨d, hd, hn⟩ := h
  obtain ⟨high, low, hhigh, hlow, hsub⟩ := extentForm?_eq_some.1 hd
  rw [← Affine.value_of_constant? hn env.valuation, (Affine.sub?_eq_some hsub).2.2,
    Affine.ofExpr?_value hhigh (Env.wide?_of_index hb),
    Affine.ofExpr?_value hlow (Env.wide?_of_index ha)]

/-- The free dimensions of a window are its intervals, whatever it is taken from. -/
theorem Env.extents_of_narrows {v : View} {dims : List ViewDim} {cuts : List Cut}
    (hcuts : checked.cuts env w.dims = some cuts) (h : View.Narrows dims cuts v.dims) :
    List.Forall₂ (fun (i : Expr × Expr) (n : Word) => ∃ a b, env.index i.1 = .ok a ∧
      env.index i.2 = .ok b ∧ n.toInt = b.toInt - a.toInt) w.intervals v.extents := by
  obtain ⟨buf, ds⟩ := w
  obtain ⟨tensor, name, dims'⟩ := v
  rw [cuts_eq_some] at hcuts
  change View.Narrows dims cuts dims' at h
  change List.Forall₂ _ (ds.filterMap _) (dims'.filterMap _)
  induction h generalizing ds with
  | nil =>
    cases hcuts
    exact .nil
  | fixed c _ ih => exact ih ds hcuts
  | point hlo hhi hc _ ih =>
    obtain _ | @⟨d, _, ds, _, hcut, hcuts⟩ := hcuts
    cases d with
    | point e => exact ih ds hcuts
    | interval lo hi => obtain ⟨_, _, _, _, ⟨⟩⟩ := cut_interval.1 hcut
  | range hlo hle hhi hstart hcount _ ih =>
    obtain _ | @⟨d, _, ds, _, hcut, hcuts⟩ := hcuts
    cases d with
    | point e => obtain ⟨_, _, ⟨⟩⟩ := cut_point.1 hcut
    | interval lo hi =>
      obtain ⟨a, b, ha, hb, ⟨⟩⟩ := cut_interval.1 hcut
      have ha := checked_eval.1 ha
      have hb := checked_eval.1 hb
      exact .cons ⟨_, _, ha, hb, hcount⟩ (ih ds hcuts)

/-- The view of a window that may be passed for a parameter has the declared shape. -/
theorem Env.shape_of_window {v : View} {shape : List Expr} (hv : env.window w = .ok v)
    (hfit : ExtentsFit w.intervals shape) : v.extents.map some = shape.map (·.int?) := by
  obtain ⟨base, cuts, dims, -, hcuts, hdims, rfl⟩ :=
    window_eq_some.1 ((checked.window_tallies _).eq_some hv)
  have hext := Env.extents_of_narrows (v := { base with dims }) hcuts hdims
  revert hext hfit
  generalize w.intervals = intervals
  generalize View.extents { base with dims } = extents
  intro hfit hext
  induction hfit generalizing extents with
  | nil =>
    cases hext
    rfl
  | cons hi _ ih =>
    obtain _ | ⟨⟨a, b, ha, hb, hn⟩, hext⟩ := hext
    obtain ⟨n, hextent, hint⟩ := hi
    rw [List.map_cons, List.map_cons, ih _ hext, hint]
    rw [← Scope.toInt_extent? hextent ha hb, Int64.toInt_inj] at hn
    rw [hn]

/-- **Validated windows have the declared shape at run time.** Let the templates be registered and the
kernel be valid against them. Wherever a run comes to a call and its windows can be taken, the body of
the template is entered, and the view for each of its parameters has as many free dimensions as are
declared, with the declared extents. -/
theorem Proc.Reaches.call_shapes {α : Type} [Element α] {ts : List Proc} {c : Catalog} {p : Proc}
    {args : Args α} {path : Path} {env : Env} {st : Store α} {name : String} {windows : List Window}
    (hcatalog : Catalog.registerAll {} ts = (c, none)) (hvalid : p.problems (some c.find?) = [])
    (h : p.Reaches c args path env st) (hcall : p.stmt? path = some (.call name windows))
    (hwindows : ∀ w ∈ windows, ∃ v, env.window w = .ok v) :
    ∃ t inner, c.find? name = some t ∧ c.enter env name windows = .ok (inner, t.body) ∧
      ∀ q ∈ t.params, ∃ d v, q = .buffer d ∧ inner.view d.name = .ok v ∧ v.rank = d.rank ∧
        v.extents.map some = d.shape.map (·.int?) := by
  obtain ⟨sc, -, code, hfrom, hscoped, -, -⟩ := h.fits hvalid
  obtain ⟨rest, hrest⟩ := Block.from?_of_get? hcall
  obtain rfl := Option.mem_unique hfrom hrest
  obtain ⟨-, t, ht, htakes⟩ := Scope.checkCall_some.1 hscoped.1
  obtain ⟨c₀, c₁, hreg⟩ := (Catalog.of_registerAll hcatalog t
    (List.mem_of_find?_eq_some ht)).resolve_left List.not_mem_nil
  have hlen : t.params.length = windows.length := htakes.length_eq.symm
  obtain ⟨inner, hinner, -, hbound⟩ := Env.enter_of_args hlen
    (Proc.nodup_params (Catalog.of_register hreg).2) hwindows
  refine ⟨t, inner, ht, Catalog.enter_eq_ok.2 ⟨t, ht, hlen, hinner, rfl⟩, fun q hq => ?_⟩
  rw [← List.map_fst_zip hlen.le] at hq
  obtain ⟨pw, hpw, rfl⟩ := List.mem_map.1 hq
  obtain ⟨d, hd, hsuits⟩ := List.forall₂_zip htakes.flip hpw
  obtain ⟨v, hv, hlookup⟩ := hbound pw hpw
  rw [hd] at hlookup
  have hshape := Env.shape_of_window hv hsuits.extents
  refine ⟨d, v, hd, ?_, ?_, hshape⟩
  · rw [Env.view, show inner.lookup d.name = _ from hlookup]
  · rw [← v.length_extents, ← List.length_map (f := some), hshape, List.length_map]
    rfl

/-- Clear four elements of row `v`. -/
def clearStep : Stmt :=
  .call "clear_four" [⟨"A", [.point (.var "v"),
    .interval (.mul (.int 4) (.var "v")) (.add (.mul (.int 4) (.var "v")) (.int 4))]⟩]

def clearSteps : Proc where
  name := "clear_steps"
  params := [.buffer ⟨"A", .f32, [.int 2, .int 8], .dram⟩]
  body := [.loop ⟨"v", .int 2, .seq⟩ [clearStep]]

/-- The call in the second round, for the elements 4 to 7 of the second row. -/
theorem clearSteps_shapes :
    let c : Catalog := ⟨[clearFour]⟩
    let args : Args Float := ⟨[], [("A", ⟨.f32, [2, 8], Array.replicate 16 1⟩)]⟩
    Catalog.registerAll {} [clearFour] = (c, none) ∧ clearSteps.problems (some c.find?) = [] ∧
      ∃ env st name windows inner, ∃ t : Proc, clearSteps.Reaches c args [0, 0] env st ∧
        env.value? "v" = some 1 ∧ clearSteps.stmt? [0, 0] = some (.call name windows) ∧
        c.enter env name windows = .ok (inner, t.body) ∧
        ∀ q ∈ t.params, ∃ d v, q = .buffer d ∧ inner.view d.name = .ok v ∧ v.rank = d.rank ∧
          v.extents.map some = d.shape.map (·.int?) := by
  intro c args
  have hcatalog : Catalog.registerAll {} [clearFour] = (c, none) := by cbv
  have hvalid : clearSteps.problems (some c.find?) = [] := by cbv
  let outer : Env := [("A", .buffer (.whole 0 "A" [2, 8]))]
  let first := (Exec.countUp (Stmt.round c c.callee outer ⟨"v", .int 2, .seq⟩
    [clearStep]) 1 0).run.run [(⟨.f32, [2, 8], Array.replicate 16 1⟩ : Tensor Float)]
  have hfirst : first = (.ok (), first.2) := Prod.ext rfl rfl
  have hreach : clearSteps.Reaches c args [0, 0] (outer.bind "v" (.index 1)) first.2 :=
    ⟨⟨outer, _, ["A"]⟩, rfl, .loop (n := 2) (k := 1) rfl (by decide) hfirst .here⟩
  obtain ⟨t, inner, -, hin, hshapes⟩ := hreach.call_shapes hcatalog hvalid rfl fun w hw => by
    obtain rfl := List.mem_singleton.1 hw
    exact ⟨_, rfl⟩
  exact ⟨hcatalog, hvalid, _, _, _, _, inner, t, hreach, rfl, rfl, hin, hshapes⟩

end LoopNest
