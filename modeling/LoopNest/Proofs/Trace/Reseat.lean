import LoopNest.Proofs.Fresh
import LoopNest.Proofs.Trace.Seat
import LoopNest.Step.Simplify

/-!
# A block with its tensors in other seats

A block may run where its tensors sit elsewhere. If some of them sit nowhere, then stores into them
are left out, and the rest of the block must not use them: `hidden` are the names of such tensors.
Wherever the block has a trace, what is left of it has one that keeps the tensors in their seats
(`Stmt.traceAll_without`). With no name hidden this is the block itself (`Stmt.traceAll_seated`).
-/

namespace LoopNest

open Stmt Block Seat

variable {b : Block} {env env' : Env} {acts : List Action}

/-! ## Without stores into hidden names -/

/-- The same words, without stores into hidden names. -/
def Rewording.without (hidden : List String) : Rewording where
  access b idx b' idx' := b ∉ hidden ∧ b' = b ∧ idx' = idx
  window a a' := a.buf ∉ hidden ∧ a' = a
  binds x := x ∉ hidden
  omits s := ∃ u b idx rhs, s = .store u b idx rhs ∧ b ∈ hidden

namespace Rewording

variable {hidden : List String} {ρ : Nat → Seat} {ev : Evaluator}

theorem without_data {e : Expr} (h : ∀ x ∈ hidden, e.reads x = false) :
    (without hidden).Data e e := by
  induction e with
  | var v => exact .var v
  | int n => exact .int n
  | float x => exact .float x
  | read b idx =>
    refine .read ⟨fun hb => ?_, rfl, rfl⟩
    simpa [Expr.reads, Expr.buffers, Expr.collect] using h b hb
  | binary op l r ihl ihr =>
    have hboth : ∀ x ∈ hidden, l.reads x = false ∧ r.reads x = false := fun x hx => by
      simpa [Expr.reads, Expr.buffers, Expr.collect, not_or] using h x hx
    exact .binary (ihl fun x hx => (hboth x hx).1) (ihr fun x hx => (hboth x hx).2)
  | neg e ih =>
    refine .neg (ih fun x hx => ?_)
    simpa [Expr.reads, Expr.buffers, Expr.collect] using h x hx

theorem without_sound : (without hidden).Sound (.seats ρ) ev (Env.Seats ρ hidden) where
  keeps h := .of_value? h.value
  operands _ _ _ := rfl
  value lay lay' h hx := (Simulation.seats ρ).term_var (h.value hx) lay lay'
  place hρ h hb hp := by
    obtain ⟨hb, rfl, rfl⟩ := hb
    simpa using (Simulation.seats ρ).place (.of_value? h.value) (h.view hb) hρ hp
  view h ha hv := by
    obtain ⟨hbuf, rfl⟩ := ha
    simpa using (Simulation.seats ρ).window (.of_value? h.value) (h.view hbuf) hv
  bind_index n _ h := h.bind_index _ n
  bind_whole shape hx hρ h := h.bind_buffer hx (hρ.shows_next _ _ shape)
  omits {c callee env env' e lay lay' s acts} hs hρ h ht := by
    obtain ⟨u, b, idx, rhs, rfl, hb⟩ := hs
    obtain ⟨t, p, -, hp, ⟨⟩⟩ := trace_store.1 ht
    obtain ⟨⟨v, hv, htensor⟩, -⟩ := Evaluator.view_of_place hp
    exact ⟨.drop_store hρ (htensor ▸ h.gone hb hv) u t, h⟩

end Rewording

/-- No statement in it reads one of the names, passes it on, or binds it; stores into hidden names
may read them. -/
def Block.Spares (hidden : List String) (b : Block) : Prop :=
  ∀ s ∈ b.nested, ∀ x ∈ hidden,
    (s.withoutStore hidden = [] ∨ s.readsHere x = false) ∧ s.binds? ≠ some x

theorem Block.Spares.nil (b : Block) : b.Spares [] := by simp [Spares]

namespace Block.Spares

variable {hidden : List String} {s : Stmt} {rest body : Block}

theorem head (h : Spares hidden (s :: rest)) : Spares hidden [s] := by
  intro t ht
  refine h t ?_
  simp only [Block.nested, nestedAll, List.append_nil, List.mem_append] at ht ⊢
  exact .inl ht

theorem tail (h : Spares hidden (s :: rest)) : Spares hidden rest := by
  intro t ht
  refine h t ?_
  simp only [Block.nested, nestedAll, List.mem_append] at ht ⊢
  exact .inr ht

theorem of_body (hs : s.body? = some body) (h : Spares hidden [s]) : Spares hidden body := by
  intro t ht
  refine h t ?_
  cases s <;> simp_all [body?, Block.nested, nestedAll, Stmt.nested]

theorem here (h : Spares hidden [s]) : ∀ x ∈ hidden,
    (s.withoutStore hidden = [] ∨ s.readsHere x = false) ∧ s.binds? ≠ some x := by
  refine h s ?_
  cases s <;> simp [Block.nested, nestedAll, Stmt.nested]

theorem turns (h : b.Spares hidden) :
    (Rewording.without hidden).Turns b (flatMapAll (·.withoutStore hidden) b) := by
  induction b using Block.induction with
  | nil => exact .nil
  | cons s rest ihs ihrest =>
    have hrest := ihrest h.tail
    have hinside := fun body hbody => ihs body hbody (h.head.of_body hbody)
    cases s with
    | loop hd body => exact .loop (fun hx => ((h.head.here hd.var hx).2 rfl).elim) (hinside body rfl) hrest
    | guard cond body => exact .guard (hinside body rfl) hrest
    | store u b idx rhs =>
      rw [flatMapAll, flatMap, withoutStore]
      split
      next hb => exact .drop ⟨u, b, idx, rhs, rfl, List.contains_iff_mem.1 hb⟩ hrest
      next hb =>
        refine .store ⟨mt List.contains_iff_mem.2 hb, rfl, rfl⟩ (Rewording.without_data fun x hx => ?_)
          hrest
        have hread := (h.head.here x hx).1.resolve_left (by rw [withoutStore, if_neg hb]; simp)
        simp only [readsHere, Stmt.exprs, List.any_append, Bool.false_or,
          Bool.or_eq_false_iff] at hread
        simpa using hread.2
    | alloc d =>
      have hturns := Rewording.Turns.alloc (w := .without hidden) (d := d)
        (fun hx => ((h.head.here d.name hx).2 rfl).elim) hrest
      rwa [show d.shape.map (Rewording.without hidden).index = d.shape from List.map_id _] at hturns
    | call name args =>
      refine .call (List.forall₂_same.2 fun a ha => ⟨fun hx => ?_, rfl⟩) hrest
      have hread := (h.head.here _ hx).1.resolve_left (by simp [withoutStore])
      simp only [readsHere, Bool.or_eq_false_iff, List.any_eq_false, beq_iff_eq] at hread
      exact hread.1 a ha rfl

end Block.Spares

/-! ## Traces -/

/-- The callee does not depend on where tensors sit. -/
def Callee.Seated (callee : Callee) : Prop := ∀ ρ, (Simulation.seats ρ).Keeps callee

section traces

variable {ev : Evaluator} {c : Catalog} {callee : Callee}

/-- **Leaving out stores that nobody reads.** Wherever a block has a trace, the block without the
stores into hidden names has one that follows it. -/
theorem Stmt.traceAll_without (hc : callee.Closed) (hcallee : callee.Seated) {hidden : List String}
    (hspare : b.Spares hidden) (ρ : Nat → Seat) :
    (Simulation.seats ρ).Follows (Env.Seats ρ hidden) (traceAll ev c callee · · b)
      (traceAll ev c callee · · (flatMapAll (·.withoutStore hidden) b)) :=
  hspare.turns.traceAll Rewording.without_sound hc (hcallee ρ)

/-- The tensors that keep their numbers have the same elements behind both blocks. -/
theorem Rewording.Turns.take_perform {w : Rewording} {ev : Evaluator} {ρ : Nat → Seat}
    {E : Env → Env → Prop} {α : Type} [Element α] {c : Catalog} {callee : Callee}
    (hw : w.Sound (.seats ρ) ev E) (hc : callee.Closed) (hcallee : callee.Seated) {b' : Block}
    (h : w.Turns b b') {e : Env} {st st' : Store α} (hρ : Seats ρ st.layout st'.layout)
    (hseated : Seated Eq ρ st.length st st') (henv : E env env') {n : Nat}
    (hold : ∀ i < n, ρ i = .whole i) (hn : n ≤ st.length)
    (ht : Stmt.traceAll ev c callee env st.layout b = some (acts, e)) :
    ∃ acts' e', Stmt.traceAll ev c callee env' st'.layout b' = some (acts', e') ∧
      (perform acts' st').take n = (perform acts st).take n := by
  obtain ⟨acts', e', ht', hseat, -⟩ := h.traceAll hw hc (hcallee ρ) hρ henv ht
  refine ⟨acts', e', ht', ?_⟩
  have hafter := hseat.stores (Element.related_eq α) rfl rfl (Store.length_layout st ▸ hseated)
  have hlayouts := hseat.layouts
  have hgrow := (traceAll_grows hc _ ht).length_le_after
  rw [← layout_perform, Store.length_layout] at hafter
  rw [← layout_perform, ← layout_perform] at hlayouts
  rw [← layout_perform, Store.length_layout, Store.length_layout] at hgrow
  exact (hafter.mono (Nat.le_trans hn hgrow)).take_eq hlayouts hold (Nat.le_trans hn hgrow)

theorem Stmt.flatMapAll_withoutStore_nil (b : Block) : flatMapAll (·.withoutStore []) b = b :=
  flatMapAll_eq_self fun s _ => by cases s <;> rfl

theorem Block.turns_self (b : Block) : (Rewording.without []).Turns b b := by
  have hturns := (Spares.nil b).turns
  rwa [flatMapAll_withoutStore_nil] at hturns

/-- **A block in other seats** follows itself. -/
theorem Stmt.traceAll_seated (hc : callee.Closed) (hcallee : callee.Seated) (b : Block)
    (ρ : Nat → Seat) : (Simulation.seats ρ).Follows (Env.Seats ρ [])
      (traceAll ev c callee · · b) (traceAll ev c callee · · b) :=
  (turns_self b).traceAll Rewording.without_sound hc (hcallee ρ)

/-- Related elements stay related along the trace of a block. -/
theorem Stmt.traceAll_reseats (hc : callee.Closed) (hcallee : callee.Seated) {e : Env}
    {lay : Layout} (ht : traceAll ev c callee env lay b = some (acts, e)) :
    Reseats .whole lay lay acts acts := by
  obtain ⟨acts', e', ht', hact, -⟩ :=
    traceAll_seated hc hcallee b .whole (.refl lay) (.refl env) ht
  obtain ⟨rfl, -⟩ := Prod.mk.inj (Option.mem_unique ht ht')
  exact hact

theorem Block.trace_seated (c : Catalog) (depth : Nat) (ev : Evaluator) :
    (Block.trace c depth ev).Seated := fun ρ =>
  Simulation.keeps_trace (fun hc hcallee => ⟨Env.Seats ρ [], id, fun b =>
    (turns_self b).traceAll Rewording.without_sound hc hcallee⟩) depth ev

end traces

/-! ## Some tensors in one seat -/

/-- Where tensors sit if the first `n` sit as `ρ` says and the next `e` in one seat. In the second
run there are `m` tensors so far. -/
def Seat.put (ρ : Nat → Seat) (n e m : Nat) (seat : Seat) (i : Nat) : Seat :=
  if i < n then ρ i else if i < n + e then seat else .whole (m + (i - (n + e)))

section put

variable {ρ : Nat → Seat} {n e m i : Nat} {seat : Seat}

theorem Seat.put_of_lt (h : i < n) : put ρ n e m seat i = ρ i := if_pos h

theorem Seat.put_of_mem (h : n ≤ i) (h' : i < n + e) : put ρ n e m seat i = seat := by
  rw [put, if_neg (by omega), if_pos h']

theorem Seat.put_of_le (h : n + e ≤ i) : put ρ n e m seat i = .whole (m + (i - (n + e))) := by
  rw [put, if_neg (by omega), if_neg (by omega)]

/-- If the seat is one that elements lie in, then it is for one tensor only, and away from all
others. -/
theorem Seats.put {lay lay' ext : Layout} (hold : ∀ {i s}, lay[i]? = some s → (ρ i).Holds lay' s)
    (hinj : ∀ {i i' o o' q}, i < lay.length → i' < lay.length → (ρ i).Lies o q →
      (ρ i').Lies o' q → i = i' ∧ o = o')
    (hnew : ∀ s ∈ ext, seat.Holds lay' s)
    (haway : ∀ {o q}, seat.Lies o q → ext.length = 1 ∧ (∀ o', seat.Lies o' q → o' = o) ∧
      ∀ i o', i < lay.length → ¬(ρ i).Lies o' q) :
    Seats (Seat.put ρ lay.length ext.length lay'.length seat) (lay ++ ext) lay' := by
  have hslot : ∀ {i s}, (lay ++ ext)[i]? = some s →
      (Seat.put ρ lay.length ext.length lay'.length seat i).Holds lay' s := by
    intro i s hs
    by_cases hi : i < lay.length
    · rw [put_of_lt hi]
      exact hold (List.getElem?_append_left hi ▸ hs)
    · have hlt := (List.getElem?_eq_some_iff.1 hs).1
      rw [put_of_mem (by omega) (List.length_append ▸ hlt)]
      rw [List.getElem?_append_right (by omega)] at hs
      exact hnew s (List.mem_of_getElem? hs)
  refine ⟨hslot, fun k => ?_, fun {i i' o o' q} hq hq' => ?_⟩
  · rw [List.length_append, put_of_le (by omega), Nat.add_sub_cancel_left]
  wlog hle : i ≤ i'
  · obtain ⟨rfl, rfl⟩ := this hold hinj hnew haway hslot hq' hq (by omega)
    exact ⟨rfl, rfl⟩
  by_cases hi' : i' < lay.length
  · rw [put_of_lt (by omega)] at hq hq'
    exact hinj (by omega) hi' hq hq'
  by_cases hmem : i' < lay.length + ext.length
  · rw [put_of_mem (by omega) hmem] at hq'
    obtain ⟨hone, hself, hother⟩ := haway hq'
    by_cases hi : i < lay.length
    · rw [put_of_lt hi] at hq
      exact absurd hq (hother i o hi)
    · rw [put_of_mem (by omega) (by omega)] at hq
      exact ⟨by omega, hself o hq⟩
  · rw [put_of_le (by omega), lies_whole] at hq'
    subst hq'
    by_cases hi : lay.length + ext.length ≤ i
    · rw [put_of_le hi, lies_whole, Prod.mk.injEq] at hq
      exact ⟨by omega, hq.2.symm⟩
    · -- all that was there before lies before what comes now
      have hlt : i < (lay ++ ext).length := by
        rw [List.length_append]
        omega
      obtain ⟨s', hs', -⟩ := (hslot (List.getElem?_eq_getElem hlt)).slot hq
      have := (List.getElem?_eq_some_iff.1 hs').1
      omega

theorem Seated.put {α β : Type} {R : α → β → Prop} {st : Store α} {st' : Store β}
    (h : Seated R ρ n st st')
    (hnew : ∀ i o x q, n ≤ i → i < n + e → seat.Lies o q → st.at? (i, o) = some x →
      ∃ y, st'.at? q = some y ∧ R x y) (m : Nat) :
    Seated R (Seat.put ρ n e m seat) (n + e) st st' := by
  intro i o x q hi hq hx
  by_cases hlt : i < n
  · rw [put_of_lt hlt] at hq
    exact h i o x q hlt hq hx
  · rw [put_of_mem (by omega) hi] at hq
    exact hnew i o x q (by omega) hi hq hx

/-- Tensors that are not there in the second run. -/
theorem Seats.forget {lay lay' : Layout} (h : Seats ρ lay lay') (ext : Layout) :
    Seats (Seat.put ρ lay.length ext.length lay'.length .gone) (lay ++ ext) lay' :=
  .put h.slot (fun _ _ => h.inj) (fun _ _ => trivial) nofun

theorem Seated.forget {α β : Type} {R : α → β → Prop} {st : Store α} {st' : Store β}
    (h : Seated R ρ n st st') (e m : Nat) : Seated R (Seat.put ρ n e m .gone) (n + e) st st' :=
  h.put (fun _ _ _ _ _ _ => False.elim) m

theorem Env.SeatsBut.put {names : List String} (h : env.SeatsBut names ρ env')
    (hlt : env.ViewsBelow n) (e m : Nat) (seat : Seat) :
    env.SeatsBut names (Seat.put ρ n e m seat) env' where
  value := h.value
  view {x v} hx hv := by
    rw [put_of_lt (hlt x v hv)]
    exact h.view hx hv

end put

/-! ## More tensors behind the first ones -/

/-- The seats of tensors where `m` more stand behind the first `n`. -/
def Seat.raised (n m i : Nat) : Seat := .whole (if i < n then i else i + m)

theorem Seat.raised_of_lt {n m i : Nat} (h : i < n) : raised n m i = .whole i := by
  rw [raised, if_pos h]

theorem Seats.raised (lay ext : Layout) :
    Seats (Seat.raised lay.length ext.length) lay (lay ++ ext) where
  slot {i s} hs := by
    have hlt := (List.getElem?_eq_some_iff.1 hs).1
    rw [raised_of_lt hlt, holds_whole, List.getElem?_append_left hlt, hs]
  fresh k := by
    rw [Seat.raised, if_neg (by omega), List.length_append, Nat.add_right_comm]
  inj {i i' o o' q} hq hq' := by
    rw [Seat.raised, lies_whole] at hq hq'
    obtain ⟨hnumber, rfl⟩ := Prod.mk.inj (hq.symm.trans hq')
    refine ⟨?_, rfl⟩
    split at hnumber <;> split at hnumber <;> omega

theorem Seated.raised {α β : Type} {R : α → β → Prop} {n : Nat} {st : Store α} {st' : Store β}
    (h : Seated R .whole n st st') (hn : n ≤ st'.length) (m : Nat) (ext : Store β) :
    Seated R (Seat.raised n m) n st (st' ++ ext) := by
  intro i o x q hi hq hx
  rw [raised_of_lt hi] at hq
  obtain ⟨y, hy, hxy⟩ := h i o x q hi hq hx
  rw [lies_whole] at hq
  subst hq
  exact ⟨y, by rw [Store.at?_append (Nat.lt_of_lt_of_le hi hn), hy], hxy⟩

/-- The second environment has what the first one has, and more buffers behind those it knows. -/
theorem Env.Seats.raised {n : Nat}
    (hkept : ∀ x, (env.lookup x).isSome → env'.lookup x = env.lookup x)
    (hlt : env.ViewsBelow n) (m : Nat) :
    env.Seats (Seat.raised n m) [] env' where
  value {x k} hx := by
    rw [value?, hkept x (by rw [value?_eq_some.1 hx]; rfl)]
    exact hx
  view {x v} _ hv := by
    refine ⟨v, ?_, ?_⟩
    · rw [view?, hkept x (by rw [view?_eq_some.1 hv]; rfl)]
      exact hv
    · rw [raised_of_lt (hlt x v hv)]
      exact shows_whole rfl rfl
  gone := nofun

end LoopNest
