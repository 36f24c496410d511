import LoopNest.Dependence
import LoopNest.Proofs.AffineValue
import LoopNest.Proofs.Trace.Commute

/-!
# Every touched element has a recorded access

The accesses of a block are recorded without running it. Here they are shown to be all there is:
whatever element of an older tensor a trace of the block touches, there is a recorded access that
*hits* it in some environment inside the loops of that access, and a recorded write if the element is
written (`Stmt.traceAll_covered`).

For a call this rests on templates being confined to the views passed to them
(`Block.trace_confined`), which is the same statement one level down.
-/

namespace LoopNest

open Stmt

variable {dims : List ViewDim} {cs : List Word} {p : Place} {idx : List Expr}

/-! ## Coordinates and views -/

/-- Coordinates that an access with these indices may mean through dimensions of a view. An index
that is not given may have any value. -/
inductive Within (value : Expr → Option Word) :
    List ViewDim → List (Option Expr) → List Word → Prop
  | nil : Within value [] [] []
  | fixed {c : Word} {dims : List ViewDim} {ds : List (Option Expr)} {cs : List Word} :
    Within value dims ds cs → Within value (.fixed c :: dims) ds (c :: cs)
  | point {offset extent i x : Word} {e : Expr} {dims : List ViewDim} {ds : List (Option Expr)}
      {cs : List Word} :
    value e = some i → x.toInt = offset.toInt + i.toInt → Within value dims ds cs →
    Within value (.free offset extent :: dims) (some e :: ds) (x :: cs)
  | any {offset extent x : Word} {dims : List ViewDim} {ds : List (Option Expr)} {cs : List Word} :
    Within value dims ds cs → Within value (.free offset extent :: dims) (none :: ds) (x :: cs)

/-- Coordinates that agree with what is fixed. -/
def Inside (dims : List ViewDim) (cs : List Word) : Prop :=
  List.Forall₂ (fun d x => ∀ c, d = .fixed c → x = c) dims cs

theorem Within.inside {value : Expr → Option Word} {ds : List (Option Expr)}
    (h : Within value dims ds cs) : Inside dims cs := by
  induction h with
  | nil => exact .nil
  | fixed _ ih => exact .cons (fun c hc => by cases hc; rfl) ih
  | point _ _ _ ih | any _ ih => exact .cons (fun c hc => nomatch hc) ih

/-- The index that a dimension of a window fixes. -/
def WindowDim.index? : WindowDim → Option Expr
  | point e => some e
  | interval _ _ => none

namespace Evaluator

variable {ev : Evaluator} {env : Env}

theorem within_of_finds {ns : List Word} (hns : ev.indices env idx = some ns)
    (h : View.Finds dims ns cs) : Within (ev.eval env) dims (idx.map some) cs := by
  rw [indices_eq_some] at hns
  induction h generalizing idx with
  | nil =>
    cases hns
    exact .nil
  | fixed c _ ih => exact .fixed (ih hns)
  | free _ _ hc _ ih =>
    obtain _ | ⟨hn, hns⟩ := hns
    exact .point hn hc (ih hns)

/-- Coordinates inside a narrowed view are those the window names in the view. -/
theorem within_of_narrows {dims' : List ViewDim} {ds : List WindowDim} {cuts : List Cut}
    (hcuts : ev.cuts env ds = some cuts) (h : View.Narrows dims cuts dims')
    (hin : Inside dims' cs) : Within (ev.eval env) dims (ds.map (·.index?)) cs := by
  rw [cuts_eq_some] at hcuts
  induction h generalizing ds cs with
  | nil =>
    cases hcuts
    cases hin
    exact .nil
  | fixed c _ ih =>
    obtain _ | ⟨hx, hin⟩ := hin
    rw [hx c rfl]
    exact .fixed (ih hcuts hin)
  | point _ _ hc _ ih =>
    obtain _ | ⟨hx, hin⟩ := hin
    obtain _ | @⟨d, _, ds, _, hcut, hcuts⟩ := hcuts
    cases d with
    | point e =>
      obtain ⟨n, hn, ⟨⟩⟩ := cut_point.1 hcut
      rw [hx _ rfl]
      exact .point hn hc (ih hcuts hin)
    | interval lo hi =>
      obtain ⟨_, _, _, _, ⟨⟩⟩ := cut_interval.1 hcut
  | range _ _ _ _ _ _ ih =>
    obtain _ | ⟨-, hin⟩ := hin
    obtain _ | @⟨d, _, ds, _, hcut, hcuts⟩ := hcuts
    cases d with
    | point e => obtain ⟨_, _, ⟨⟩⟩ := cut_point.1 hcut
    | interval lo hi => exact .any (ih hcuts hin)

end Evaluator

/-! ## Hits -/

/-- The access means this place, with its indices evaluated in `env`. -/
def Access.Hits (ev : Evaluator) (env : Env) (lay : Layout) (a : Access) (p : Place) : Prop :=
  ∃ v slot cs, env.view? a.buf = some v ∧ v.tensor = p.1 ∧ lay[p.1]? = some slot ∧
    Tensor.offsetFrom? 0 slot.shape cs = some p.2 ∧ Within (ev.eval env) v.dims a.dims cs

/-- The environment `inner` extends `env` inside the given loops and by tensors allocated there: it
has no other views of the first `n` tensors, and no other indices than loop variables, which are
within their ranges. -/
structure Env.Inner (n : Nat) (loops : List Enclosing) (env inner : Env) : Prop where
  view : ∀ x v, inner.view? x = some v → v.tensor < n → env.view? x = some v
  value : ∀ x k, inner.value? x = some k → x ∉ loops.map (·.1) → env.value? x = some k
  range : ∀ x ∈ loops.map (·.1), ∃ count, (x, count) ∈ loops ∧
    ∀ k, inner.value? x = some k → 0 ≤ k.toInt ∧ ∀ m, count = some m → k.toInt < m.toInt

namespace Env.Inner

variable {n : Nat} {loops : List Enclosing} {env inner : Env}

theorem refl (n : Nat) (env : Env) : Env.Inner n [] env env :=
  ⟨fun _ _ h _ => h, fun _ _ h _ => h, by simp⟩

theorem bind_index (h : Env.Inner n loops env inner) (x : String) {k : Word} {count : Option Word}
    (hk : 0 ≤ k.toInt) (hcount : ∀ m, count = some m → k.toInt < m.toInt) :
    Env.Inner n (loops ++ [(x, count)]) env (inner.bind x (.index k)) where
  view y v hv := h.view y v (view?_bind_index.1 hv).2
  value y m hm hy := by
    simp only [List.map_append, List.map_cons, List.map_nil, List.mem_append, List.mem_singleton,
      not_or] at hy
    exact h.value y m ((value?_bind_index.1 hm).resolve_left fun hyx => hy.2 hyx.1).2 hy.1
  range y hy := by
    by_cases hyx : y = x
    · refine ⟨count, by simp [hyx], fun m hm => ?_⟩
      simp only [value?_bind, hyx, if_true, Option.some.injEq] at hm
      exact hm ▸ ⟨hk, hcount⟩
    · simp only [List.map_append, List.map_cons, List.map_nil, List.mem_append,
        List.mem_singleton, hyx, or_false] at hy
      obtain ⟨c, hc, hr⟩ := h.range y hy
      refine ⟨c, List.mem_append_left _ hc, fun m hm => hr m ?_⟩
      simpa [value?_bind, hyx] using hm

/-- Allocated tensors are not among the first `n`. -/
theorem bind_buffer (h : Env.Inner n loops env inner) (x : String) {v : View} (hv : n ≤ v.tensor) :
    Env.Inner n loops env (inner.bind x (.buffer v)) where
  view y w hw hlt := by
    obtain ⟨-, rfl⟩ | ⟨-, hw⟩ := view?_bind_buffer.1 hw
    · omega
    · exact h.view y w hw hlt
  value y m hm hy := h.value y m (value?_bind_buffer.1 hm).2 hy
  range y hy := by
    obtain ⟨c, hc, hr⟩ := h.range y hy
    exact ⟨c, hc, fun m hm => hr m (value?_bind_buffer.1 hm).2⟩

end Env.Inner

/-- The places that actions write, or that they touch at all. -/
def places (write : Bool) (acts : List Action) : List Place :=
  if write then written acts else touched acts

@[simp] theorem places_nil (write : Bool) : places write [] = [] := by
  cases write <;> rfl

@[simp] theorem places_append (write : Bool) (acts acts' : List Action) :
    places write (acts ++ acts') = places write acts ++ places write acts' := by
  cases write <;> simp [places]

@[simp] theorem places_scope (write : Bool) (lay : Layout) (acts : List Action) :
    places write (scope lay acts) = places write acts := by
  cases write <;> simp [places, scope, written, touched, Action.written, Action.touched]

theorem mem_places_flatMap {write : Bool} {κ : Type} {l : List κ} {g : κ → List Action} :
    p ∈ places write (l.flatMap g) ↔ ∃ k ∈ l, p ∈ places write (g k) := by
  induction l with
  | nil => simp
  | cons k l ih => simp [ih]

/-- Every place of the first tensors that the actions touch is hit by one of the accesses, in an
environment inside its loops, and by a write if it is written. -/
def Covered (ev : Evaluator) (lay : Layout) (env : Env) (accesses : List Access)
    (acts : List Action) : Prop :=
  ∀ (write : Bool) (p : Place), p.1 < lay.length → p ∈ places write acts →
    ∃ a ∈ accesses, (write = true → a.write = true) ∧
      ∃ inner, Env.Inner lay.length a.loops env inner ∧ a.Hits ev inner lay p

theorem Covered.mono {ev : Evaluator} {lay : Layout} {env : Env} {l l' : List Access}
    {acts : List Action} (h : Covered ev lay env l acts) (hsub : ∀ a ∈ l, a ∈ l') :
    Covered ev lay env l' acts := by
  intro w p hp hmem
  obtain ⟨a, ha, hit⟩ := h w p hp hmem
  exact ⟨a, hsub a ha, hit⟩

theorem Covered.append {ev : Evaluator} {lay : Layout} {env : Env} {l : List Access}
    {acts acts' : List Action} (h : Covered ev lay env l acts) (h' : Covered ev lay env l acts') :
    Covered ev lay env l (acts ++ acts') := by
  intro w p hp hmem
  rw [places_append, List.mem_append] at hmem
  exact hmem.elim (h w p hp) (h' w p hp)

/-- A callee that touches nothing but what it allocates and what lies in the views passed to it. -/
def Callee.Confined (callee : Callee) : Prop :=
  ∀ (env : Env) (lay : Layout) (b : Block) (acts : List Action), callee env lay b = some acts →
    ∀ (p : Place), p.1 < lay.length → p ∈ touched acts →
      ∃ x v slot cs, env.view? x = some v ∧ v.tensor = p.1 ∧ lay[p.1]? = some slot ∧
        Tensor.offsetFrom? 0 slot.shape cs = some p.2 ∧ Inside v.dims cs

/-! ## Statements -/

namespace Evaluator

variable {ev : Evaluator} {env : Env}

/-- An access to a place of an old tensor hits it. -/
theorem hits_of_place {lay lay' ext : Layout} {buf : String} (hlay : lay' = lay ++ ext)
    (hp : p.1 < lay.length) (h : ev.place env lay' buf idx = some p) (write : Bool)
    (loops : List Enclosing) : Access.Hits ev env lay ⟨buf, idx.map some, write, loops⟩ p := by
  obtain ⟨v, ns, hv, hns, h⟩ := place_eq_some.1 h
  obtain ⟨cs, slot, hcs, hslot, ho, htensor⟩ := View.place?_eq_some.1 h
  rw [← htensor, hlay, List.getElem?_append_left hp] at hslot
  exact ⟨v, slot, cs, hv, htensor.symm, hslot, ho, within_of_finds hns hcs⟩

/-- What a data expression reads is among its recorded reads. -/
theorem read_of_loads {lay : Layout} (loops : List Enclosing) {e : Expr} {t : Term}
    (h : ev.term env lay e = some t) (hp : p ∈ t.loads) :
    ∃ buf idx, (⟨buf, idx.map some, false, loops⟩ : Access) ∈ Access.reads loops e ∧
      ev.place env lay buf idx = some p := by
  induction e generalizing t with
  | var v =>
    obtain ⟨n, -, rfl⟩ := term_var.1 h
    simp [Term.loads] at hp
  | int n | float x =>
    cases h
    simp [Term.loads] at hp
  | read b idx =>
    obtain ⟨q, hq, rfl⟩ := term_read.1 h
    obtain rfl := List.mem_singleton.1 hp
    exact ⟨b, idx, by simp [Access.reads, Expr.collect], (load_eq_some.1 hq).1⟩
  | binary op l r ihl ihr =>
    obtain ⟨-, tl, tr, hl, hr, rfl⟩ := term_binary.1 h
    obtain hp | hp := List.mem_append.1 hp
    · obtain ⟨b, idx, ha, hplace⟩ := ihl hl hp
      exact ⟨b, idx, by simp [Access.reads, Expr.collect] at ha ⊢; exact .inl ha, hplace⟩
    · obtain ⟨b, idx, ha, hplace⟩ := ihr hr hp
      exact ⟨b, idx, by simp [Access.reads, Expr.collect] at ha ⊢; exact .inr ha, hplace⟩
  | neg e ih =>
    obtain ⟨u, hu, rfl⟩ := term_neg.1 h
    obtain ⟨b, idx, ha, hplace⟩ := ih hu hp
    exact ⟨b, idx, by simpa [Access.reads, Expr.collect] using ha, hplace⟩

/-- The views that a template gets are those of the windows of its call. -/
theorem view?_of_enter {l : List (Param × Window)} {inner r : Env}
    (h : ev.enter env inner l = some r) {x : String} {v : View} (hv : r.view? x = some v) :
    (∃ pw ∈ l, ev.window env pw.2 = some v) ∨ inner.view? x = some v := by
  induction l generalizing inner with
  | nil =>
    cases h
    exact .inr hv
  | cons pw l ih =>
    obtain ⟨p, w⟩ := pw
    simp only [enter, option_bind_eq_some] at h
    obtain ⟨u, hu, h⟩ := h
    obtain ⟨q, hq, hw⟩ | hin := ih h
    · exact .inl ⟨q, .tail _ hq, hw⟩
    · obtain ⟨-, rfl⟩ | ⟨-, hin⟩ := Env.view?_bind_buffer.1 hin
      · exact .inl ⟨(p, w), .head _, hu⟩
      · exact .inr hin

end Evaluator

section statements

variable {ev : Evaluator} {c : Catalog} {callee : Callee} {lay : Layout} {env₀ : Env}

/-- A loop variable is below the number of rounds if that is constant. -/
theorem Header.lt_of_constant? {env : Env} {h : Header} {n : Word} {k : Nat}
    (hn : ev.eval env h.bound = some n) (hk : k < n.toInt.toNat) :
    0 ≤ (Int64.ofNat k).toInt ∧ ∀ m, h.bound.constant? = some m → (Int64.ofNat k).toInt < m.toInt := by
  have hval := Word.toInt_ofNat hk
  refine ⟨by omega, fun m hm => ?_⟩
  have hnm : n.toInt = m.toInt := Expr.wide?_of_constant? hm (ev.to_wide hn)
  omega

/-- One statement, if its body, if it has one, is covered. -/
theorem Stmt.trace_covered_of_body (hconf : callee.Confined) {s : Stmt}
    (hbody : ∀ body, s.body? = some body → ∀ {loops : List Enclosing} {env env' : Env}
      {lay' ext : Layout} {acts : List Action}, Env.Inner lay.length loops env₀ env →
      lay' = lay ++ ext → traceAll ev c callee env lay' body = some (acts, env') →
        Covered ev lay env₀ (Access.ofBlock loops body) acts)
    {loops : List Enclosing} {env env' : Env} {lay' ext : Layout} {acts : List Action}
    (hinner : Env.Inner lay.length loops env₀ env) (hlay : lay' = lay ++ ext)
    (h : s.trace ev c callee env lay' = some (acts, env')) :
    Covered ev lay env₀ (Access.ofStmt loops s) acts := by
  cases s with
  | loop hd body =>
    obtain ⟨n, g, hn, hg, ⟨⟩⟩ := trace_loop.1 h
    intro w p hp hmem
    obtain ⟨k, hk, hmem⟩ := mem_places_flatMap.1 hmem
    rw [places_scope] at hmem
    have hk := List.mem_range.1 hk
    obtain ⟨e, he⟩ := hg k hk
    obtain ⟨h0, hlt⟩ := Header.lt_of_constant? hn hk
    exact hbody body rfl (hinner.bind_index hd.var h0 hlt) hlay he w p hp hmem
  | guard cond body =>
    obtain ⟨-, ⟨⟩⟩ | ⟨-, a, e, ha, ⟨⟩⟩ := trace_guard.1 h
    · intro w p hp hmem
      simp at hmem
    · intro w p hp hmem
      rw [places_scope] at hmem
      exact hbody body rfl hinner hlay ha w p hp hmem
  | store u b idx rhs =>
    obtain ⟨t, q, ht, hq, ⟨⟩⟩ := trace_store.1 h
    intro w p hp hmem
    -- the element that is stored, or one that the right-hand side reads
    have hcase : p = q ∨ w = false ∧ p ∈ t.loads := by
      cases w <;> simp_all [places, written, touched, Action.written, Action.touched]
    obtain rfl | ⟨rfl, hp'⟩ := hcase
    · exact ⟨_, List.mem_append_right _ (.head _), fun _ => rfl, env, hinner,
        Evaluator.hits_of_place hlay hp hq _ _⟩
    · obtain ⟨buf, ridx, ha, hplace⟩ := Evaluator.read_of_loads loops ht hp'
      exact ⟨_, List.mem_append_left _ ha, by simp, env, hinner,
        Evaluator.hits_of_place hlay hp hplace _ _⟩
  | alloc d =>
    obtain ⟨shape, size, -, -, ⟨⟩⟩ := trace_alloc.1 h
    intro w p hp hmem
    cases w <;> simp [places, written, touched, Action.written, Action.touched] at hmem
  | call name args =>
    obtain ⟨t, inner, a, -, -, henter, ha, ⟨⟩⟩ := trace_call.1 h
    intro w p hp hmem
    have hmem : p ∈ touched acts := by
      cases w
      · exact hmem
      · exact touched_of_written hmem
    have hp' : p.1 < lay'.length := by
      rw [hlay, List.length_append]
      omega
    obtain ⟨x, v, slot, cs, hv, htensor, hslot, hoff, hin⟩ := hconf _ _ _ _ ha p hp' hmem
    obtain ⟨⟨q, win⟩, hpw, hwin⟩ | hnil := Evaluator.view?_of_enter henter hv
    · obtain ⟨base, cuts, dims, hbase, hcuts, hdims, rfl⟩ := Evaluator.window_eq_some.1 hwin
      rw [hlay, List.getElem?_append_left hp] at hslot
      exact ⟨.ofWindow loops win, List.mem_map.2 ⟨win, (List.of_mem_zip hpw).2, rfl⟩, fun _ => rfl,
        env, hinner, base, slot, cs, hbase, htensor, hslot, hoff,
        Evaluator.within_of_narrows hcuts hdims hin⟩
    · simp [Env.view?] at hnil

/-- **Recorded accesses are all there is.** -/
theorem Stmt.traceAll_covered (hc : callee.Closed) (hconf : callee.Confined) (b : Block)
    {loops : List Enclosing} {env env' : Env} {lay' ext : Layout} {acts : List Action}
    (hinner : Env.Inner lay.length loops env₀ env) (hlay : lay' = lay ++ ext)
    (h : traceAll ev c callee env lay' b = some (acts, env')) :
    Covered ev lay env₀ (Access.ofBlock loops b) acts := by
  induction b using Block.induction generalizing loops env env' lay' ext acts with
  | nil =>
    obtain ⟨⟩ := traceAll_nil.1 h
    intro w p hp hmem
    simp at hmem
  | cons s rest ihs ihrest =>
    obtain ⟨a, e, a', e', hs, hrest, ⟨⟩⟩ := traceAll_cons.1 h
    have hhead := trace_covered_of_body hconf ihs hinner hlay hs
    obtain ⟨hsame, hgrow⟩ := trace_grows hc hs
    obtain ⟨ext', hext'⟩ := hgrow.after
    have hinner' : Env.Inner lay.length loops env₀ e := by
      cases hd : s.decl? with
      | none => exact (hsame hd).2 ▸ hinner
      | some d =>
        cases s with
        | alloc d =>
          obtain ⟨shape, size, -, -, ⟨⟩⟩ := trace_alloc.1 hs
          exact hinner.bind_buffer d.name (by simp [View.whole, hlay])
        | _ => cases hd
    have hlay' : lay'.after a = lay ++ (ext ++ ext') := by rw [hext', hlay, List.append_assoc]
    have htail := ihrest hinner' hlay' hrest
    rw [Access.ofBlock]
    exact (hhead.mono fun x hx => List.mem_append_left _ hx).append
      (htail.mono fun x hx => List.mem_append_right _ hx)

theorem Callee.confined_none : Callee.Confined fun _ _ _ => none := by simp [Callee.Confined]

/-- **Templates stay in the views passed to them.** -/
theorem Block.trace_confined (c : Catalog) (depth : Nat) (ev : Evaluator) :
    Callee.Confined (Block.trace c depth ev) := by
  have hstep : ∀ {callee : Callee} {ev : Evaluator}, callee.Closed → callee.Confined →
      Callee.Confined fun env lay b =>
        (traceAll ev c callee env lay b).map (scope lay ·.1) := by
    intro callee ev hc hconf env lay b acts h p hp hmem
    obtain ⟨⟨a, e⟩, ha, rfl⟩ := Option.map_eq_some_iff.1 h
    have hmem : p ∈ places false a := by rwa [← places_scope false lay]
    obtain ⟨acc, -, -, inner, hinner, v, slot, cs, hv, htensor, hslot, hoff, hwithin⟩ :=
      traceAll_covered hc hconf b (Env.Inner.refl lay.length env)
        (List.append_nil lay).symm ha false p hp hmem
    exact ⟨acc.buf, v, slot, cs, hinner.view _ v hv (htensor ▸ hp), htensor, hslot, hoff,
      hwithin.inside⟩
  induction depth generalizing ev with
  | zero => exact hstep Callee.closed_none Callee.confined_none
  | succ depth ih => exact hstep (Block.trace_closed c depth .checked) (ih .checked)

end statements

end LoopNest
