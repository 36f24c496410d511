import LoopNest.Proofs.Sink
import LoopNest.Proofs.Trace.Lift
import LoopNest.Proofs.Views

/-!
# Recorded accesses cover every run

A statement that a run comes to touches elements (`Stmt.Touches`), whether the run ends or fails
later: what its right-hand side reads, what it assigns, and all that the body of a template that it
calls touches. Each of them is hit by an access recorded for the statement (`Stmt.Touches.hits`).
Along a run of the block around it, the environment is inside the loops of the access
(`Block.Reaches.accesses`), so the accesses recorded for a block describe all that its runs touch
(`Proc.Reaches.exists_access`).
-/

namespace LoopNest

open Exec Evaluator

variable {buf : String} {idx : List Expr} {callee : Callee} {b : Block} {path : Path} {env' : Env}

/-! ## What a statement touches -/

/-- Evaluating the data expression reads the buffer at these indices. -/
def Expr.Reads (buf : String) (idx : List Expr) : Expr → Prop
  | .read b is => b = buf ∧ is = idx
  | .binary _ l r => l.Reads buf idx ∨ r.Reads buf idx
  | .neg e => e.Reads buf idx
  | _ => False

theorem Expr.Reads.mem_reads {e : Expr} (h : e.Reads buf idx) (loops : List Enclosing) :
    ⟨buf, idx.map some, false, loops⟩ ∈ Access.reads loops e := by
  induction e with
  | read b is =>
    obtain ⟨rfl, rfl⟩ := h
    simp [Access.reads, Expr.collect]
  | binary op l r ihl ihr =>
    simp only [Access.reads, Expr.collect, List.mem_append] at ihl ihr ⊢
    exact .inr (h.imp ihl ihr)
  | neg e ih => simpa [Access.reads, Expr.collect] using ih h
  | _ => cases h

variable {α : Type} [Element α] {c : Catalog} {write : Bool} {k : Nat} {cs : List Word} {env : Env}
  {st : Store α}

/-- The statement, which a run comes to in this state, reads the element of tensor `k` at `cs`, or
writes it if `write` is set. An addition does both, and a call what statements of the template do,
however deep calls may be nested there. -/
inductive Stmt.Touches (c : Catalog) (write : Bool) (k : Nat) (cs : List Word) :
    Env → Store α → Stmt → Prop
  | read {env : Env} {st : Store α} {u : Update} {b buf : String} {idx is : List Expr} {rhs : Expr}
      {v : View} :
    write = false → rhs.Reads buf is → env.address buf is = .ok (v, cs) → v.tensor = k →
    Touches c write k cs env st (.store u b idx rhs)
  | store {env : Env} {st : Store α} {u : Update} {b : String} {idx : List Expr} {rhs : Expr}
      {v : View} :
    (write = false → u = .add) → env.address b idx = .ok (v, cs) → v.tensor = k →
    Touches c write k cs env st (.store u b idx rhs)
  | call (depth : Nat) {env inner env' : Env} {st st' : Store α} {name : String}
      {args : List Window} {body : Block} {path : Path} {s : Stmt} :
    c.enter env name args = .ok (inner, body) →
    Block.Reaches c (Block.exec c depth) inner st body path env' st' → body.get? path = some s →
    Touches c write k cs env' st' s → Touches c write k cs env st (.call name args)

/-- What is bound on the way are tensors that were not there before. -/
theorem Block.Reaches.view?_of_lt {exec : Env → Block → Exec α Unit} (hc : callee.Closed)
    (hcov : callee.Covers exec) {st' : Store α} (h : Block.Reaches c exec env st b path env' st') :
    st.length ≤ st'.length ∧
      ∀ x v, env'.view? x = some v → v.tensor < st.length → env.view? x = some v := by
  rw [← st.length_layout, ← st'.length_layout]
  refine (h.along hc hcov (I := fun e lay _ => st.layout.length ≤ lay.length ∧
    ∀ x v, e.view? x = some v → v.tensor < st.layout.length → env.view? x = some v) ?_ ?_ ?_
    ⟨Nat.le_refl _, fun _ _ hv _ => hv⟩).elim fun _ h => h.2
  · rintro e e' lay s rest acts ht ⟨hlen, hview⟩
    refine ⟨hlen.trans (Stmt.trace_grows hc ht).2.length_le_after, fun x v hv hlt => ?_⟩
    cases s with
    | alloc d =>
      obtain ⟨shape, size, -, -, ⟨⟩⟩ := Stmt.trace_alloc.1 ht
      obtain ⟨-, rfl⟩ | ⟨-, hv⟩ := Env.view?_bind_buffer.1 hv
      · exact absurd hlt (Nat.not_lt.2 hlen)
      · exact hview x v hv hlt
    | _ =>
      rw [((Stmt.trace_grows hc ht).1 rfl).2] at hv
      exact hview x v hv hlt
  · rintro e lay h body rest n - ⟨hlen, hview⟩
    exact ⟨hlen, fun x v hv => hview x v (Env.view?_bind_index.1 hv).2⟩
  · exact fun h => h

theorem Env.within_of_address {v : View}
    (h : env.address buf idx = .ok (v, cs)) : env.view? buf = some v ∧
      Within (checked.eval env) v.dims (idx.map some) cs := by
  obtain ⟨hv, ns, hns, hfinds⟩ := Env.address_eq_ok.1 h
  exact ⟨hv, within_of_finds ((checked.indices_tallies (List.Subset.refl _)).eq_some hns) hfinds⟩

/-- **What a statement touches is hit by an access recorded for it.** The induction is on how deep
the call is nested in which the element is touched. -/
theorem Stmt.Touches.hits {s : Stmt} (h : s.Touches c write k cs env st) (hk : k < st.length)
    (loops : List Enclosing) : ∃ a ∈ Access.ofStmt loops s, (write = true → a.write = true) ∧
      a.loops = loops ∧ ∃ v, env.view? a.buf = some v ∧ v.tensor = k ∧
        Within (checked.eval env) v.dims a.dims cs := by
  induction h generalizing loops with
  | read hw hread haddress hv =>
    obtain ⟨hview, hwithin⟩ := Env.within_of_address haddress
    exact ⟨_, List.mem_append_left _ (hread.mem_reads loops), by simp [hw], rfl, _, hview, hv,
      hwithin⟩
  | store _ haddress hv =>
    obtain ⟨hview, hwithin⟩ := Env.within_of_address haddress
    exact ⟨_, List.mem_append_right _ (.head _), fun _ => rfl, rfl, _, hview, hv, hwithin⟩
  | call depth henter hreach _ _ ih =>
    obtain ⟨hlen, hview⟩ := hreach.view?_of_lt (Block.trace_closed c depth .checked)
      (Block.trace_covers c depth .checked)
    obtain ⟨a, -, -, -, v, hv, htensor, hwithin⟩ := ih (hk.trans_le hlen) []
    obtain ⟨w, hw, hwindow⟩ := Catalog.view?_of_enter henter (hview _ v hv (htensor ▸ hk))
    obtain ⟨base, cuts, dims, hbase, hcuts, hdims, rfl⟩ := window_eq_some.1 hwindow
    exact ⟨.ofWindow loops w, List.mem_map.2 ⟨w, hw, rfl⟩, fun _ => rfl, rfl, base, hbase, htensor,
      within_of_narrows hcuts hdims hwithin.inside⟩

/-! ## Blocks -/

/-- The loop variable has a value within the range of its loop. -/
def Env.InRange (env : Env) (l : Enclosing) : Prop :=
  ∃ n, env.value? l.1 = some n ∧ 0 ≤ n.toInt ∧ ∀ m, l.2 = some m → n.toInt < m.toInt

/-- **Where a run comes to, it is inside the loops of the accesses recorded there.** -/
theorem Block.Reaches.accesses {exec : Env → Block → Exec α Unit} (hc : callee.Closed)
    (hcov : callee.Covers exec) {st' : Store α} (h : Block.Reaches c exec env st b path env' st')
    {seen : List String} (htidy : env.Tidy seen st.layout) (hfresh : Stmt.FreshAll seen b) :
    ∃ rest, b.from? path = some rest ∧ ∃ loops, (∀ l ∈ loops, env'.InRange l) ∧
      Access.ofBlock loops rest ⊆ Access.ofBlock [] b := by
  refine (h.along hc hcov
    (I := fun e lay rest => ∃ seen loops, e.Tidy seen lay ∧ Stmt.FreshAll seen rest ∧
      (∀ l ∈ loops, e.InRange l) ∧ Access.ofBlock loops rest ⊆ Access.ofBlock [] b) ?_ ?_ ?_
    ⟨seen, [], htidy, hfresh, by simp, List.Subset.refl _⟩).elim
    fun rest ⟨hfrom, _, loops, _, _, h⟩ => ⟨rest, hfrom, loops, h⟩
  · rintro e e' lay s rest acts ht ⟨seen, loops, htidy, hfresh, hrange, hsub⟩
    refine ⟨_, loops, htidy.trace hc ht, hfresh.2, fun l hl => ?_,
      List.Subset.trans (List.subset_append_right ..) hsub⟩
    obtain ⟨n, hn, hlt⟩ := hrange l hl
    exact ⟨n, htidy.value?_trace hc hfresh.1 ht hn, hlt⟩
  · rintro e lay h body rest n hn ⟨seen, loops, htidy, hfresh, hrange, hsub⟩
    refine ⟨_, loops ++ [(h.var, h.bound.constant?)], htidy.bind_index h.var n, hfresh.1.2,
      fun l hl => ?_, List.Subset.trans (List.subset_append_left ..) hsub⟩
    obtain hl | hl := List.mem_append.1 hl
    · obtain ⟨m, hm, hlt⟩ := hrange l hl
      exact ⟨m, htidy.value?_bind hfresh.1.1 hm _, hlt⟩
    · obtain rfl := List.mem_singleton.1 hl
      exact ⟨n, by simp [Env.value?_bind], hn⟩
  · rintro e lay cond body rest ⟨seen, loops, htidy, hfresh, hrange, hsub⟩
    exact ⟨seen, loops, htidy, hfresh.1, hrange,
      List.Subset.trans (List.subset_append_left ..) hsub⟩

/-- In a whole tensor the coordinates are the indices. -/
theorem Within.index_eq {dims : List ViewDim} {ds : List (Option Expr)}
    (h : Within (checked.eval env) dims ds cs) (hwhole : ViewDim.Whole dims) :
    List.Forall₂ (fun d x => ∀ e, d = some e → env.index e = .ok x) ds cs := by
  induction h with
  | nil => exact .nil
  | fixed => simp [ViewDim.Whole] at hwhole
  | @point offset extent i x e dims ds cs hi hx _ ih =>
    obtain ⟨⟨_, ⟨⟩⟩, hdims⟩ := List.forall_mem_cons.1 hwhole
    refine .cons (fun e' he => ?_) (ih hdims)
    obtain rfl : x = i := Int64.toInt_inj.1 (by simpa using hx)
    exact Option.some.inj he ▸ checked_eval.1 hi
  | any _ ih => exact .cons nofun (ih (List.forall_mem_cons.1 hwhole).2)

end LoopNest
