import LoopNest.Proofs.Context

/-!
# Leaving out dead allocations

An allocation that no later statement reads is left out with all writes to it. The tensors after it
then have other numbers, and the one left out has none. Inside the scope the two runs differ, but
what they leave behind is the same (`dropDead_trace`).
-/

namespace LoopNest

open Stmt

/-! ## Names that nobody reads -/

variable {gone seen : List String} {b : Block}

/-- What reads a name once stores are left out read it before. -/
theorem Stmt.readsHere_of_withoutStore {x : String}
    (h : (Block.nested (Stmt.flatMapAll (·.withoutStore gone) b)).any (·.readsHere x) = false) :
    ∀ s ∈ b.nested, s.withoutStore gone = [] ∨ s.readsHere x = false := by
  induction b using Block.induction with
  | nil => simp [Block.nested, nestedAll]
  | cons s rest ihs ihrest =>
    rw [Stmt.flatMapAll, Block.nested, nestedAll_append, List.any_append, Bool.or_eq_false_iff] at h
    intro t ht
    rw [Block.nested, nestedAll, List.mem_append] at ht
    obtain ht | ht := ht
    · have hhead := h.1
      cases s with
      | loop hd body | guard e body =>
        simp only [Stmt.flatMap, Stmt.withoutStore, nestedAll, Stmt.nested, List.append_nil,
          List.any_cons, Bool.or_eq_false_iff] at hhead
        obtain rfl | ht := List.mem_cons.1 ht
        · exact .inr hhead.1
        · exact ihs body rfl hhead.2 t ht
      | store u b idx rhs =>
        obtain rfl := List.mem_singleton.1 ht
        by_cases hb : gone.contains b = true
        · exact .inl (if_pos hb)
        · rw [Stmt.flatMap, Stmt.withoutStore, if_neg hb] at hhead
          exact .inr (by simpa [nestedAll, Stmt.nested] using hhead)
      | alloc d | call name args =>
        obtain rfl := List.mem_singleton.1 ht
        exact .inr (by simpa [Stmt.flatMap, Stmt.withoutStore, nestedAll, Stmt.nested] using hhead)
    · exact ihrest h.2 t ht

theorem Stmt.withoutStore_eq_nil_mono {gone' : List String} (hsub : gone ⊆ gone') {s : Stmt}
    (h : s.withoutStore gone = []) : s.withoutStore gone' = [] := by
  cases s with
  | store u b idx rhs =>
    rw [Stmt.withoutStore] at h ⊢
    split at h
    next hb => rw [if_pos (List.contains_iff_mem.2 (hsub (List.contains_iff_mem.1 hb)))]
    · cases h
  | _ => cases h

/-- A dead allocation is hidden from what follows. -/
theorem Block.Spares.cons {x : String} {rest : Block} (hspare : Block.Spares gone rest)
    (hfresh : Stmt.FreshAll (x :: seen) rest)
    (hdead : (Block.nested (Stmt.flatMapAll (·.withoutStore gone) rest)).any (·.readsHere x) =
      false) : Block.Spares (x :: gone) rest := by
  intro s hs y hy
  have hmono := withoutStore_eq_nil_mono (List.subset_cons_self x gone) (s := s)
  obtain rfl | hy := List.mem_cons.1 hy
  · refine ⟨(readsHere_of_withoutStore hdead s hs).imp_left hmono, fun hbind => ?_⟩
    exact hfresh.not_mem_binders (.head _) (List.mem_filterMap.2 ⟨s, hs, hbind⟩)
  · exact ⟨(hspare s hs y hy).1.imp_left hmono, (hspare s hs y hy).2⟩

/-! ## Blocks -/

section blocks

variable {ev : Evaluator} {c : Catalog} {callee : Callee} {gone seen : List String}

/-- The environment after an allocation that is left out. -/
theorem Env.Seats.drop_alloc {ρ : Nat → Seat} {env env' : Env} {n : Nat} (h : env.Seats ρ gone env')
    (hlt : env.ViewsBelow n) (x : String) (shape : List Nat) (m : Nat) :
    Env.Seats (Seat.put ρ n 1 m .gone) (x :: gone) (env.bind x (.buffer (.whole n x shape)))
      env' where
  value {y k} hy := h.value (value?_bind_buffer.1 hy).2
  view {y v} hy hv := by
    rw [List.mem_cons, not_or] at hy
    rw [view?_bind, if_neg hy.1] at hv
    exact (h.toSeatsBut.put hlt 1 m .gone).view hy.2 hv
  gone {y v} hy hv := by
    obtain ⟨-, rfl⟩ | ⟨hyx, hv⟩ := view?_bind_buffer.1 hv
    · exact Seat.put_of_mem (Nat.le_refl n) (Nat.lt_succ_self n)
    · rw [Seat.put_of_lt (hlt y v hv)]
      exact h.gone ((List.mem_cons.1 hy).resolve_left hyx) hv

variable (ev c callee) in
/-- Where the first block has a trace, with the names in `gone` hidden from the second, the second
has one that leaves the same elements in the tensors that were there before. -/
def Shrinks (gone seen : List String) (b b' : Block) : Prop :=
  ∀ ⦃ρ : Nat → Seat⦄ ⦃env env' e : Env⦄ ⦃lay lay' : Layout⦄ ⦃acts : List Action⦄,
    Seats ρ lay lay' → env.Seats ρ gone env' → env.Tidy seen lay →
    traceAll ev c callee env lay b = some (acts, e) →
      ∃ acts' e', traceAll ev c callee env' lay' b' = some (acts', e') ∧
        ∀ {α : Type} [Element α] {st st' : Store α}, st.layout = lay → st'.layout = lay' →
          Seated Eq ρ lay.length st st' →
            Seated Eq ρ lay.length (perform acts st) (perform acts' st')

/-- A statement stays, without its stores into names that are gone. -/
theorem Shrinks.cons (hc : callee.Closed) (hm : callee.Seated) {s : Stmt} {rest rest' : Block}
    (hspare : Block.Spares gone [s]) (h : Shrinks ev c callee gone (s.declared ++ seen) rest rest')
    :
    Shrinks ev c callee gone seen (s :: rest) (s.flatMap (·.withoutStore gone) ++ rest') := by
  intro ρ env env' e lay lay' acts hρ henv htidy ht
  obtain ⟨a, e₁, a', e₂, hs, hrest, ⟨⟩⟩ := traceAll_cons.1 ht
  obtain ⟨x, f, hx, hact, henv₁⟩ :=
    traceAll_without hc hm hspare ρ hρ henv (traceAll_singleton.2 hs)
  rw [Stmt.flatMapAll, Stmt.flatMapAll, List.append_nil] at hx
  obtain ⟨y, f', hy, hkept⟩ := h hact.layouts henv₁ (htidy.trace hc hs) hrest
  refine ⟨x ++ y, f', traceAll_append.2 ⟨x, f, y, f', hx, hy, rfl⟩, fun hst hst' hseated => ?_⟩
  rw [perform_append, perform_append]
  exact (hkept (by rw [layout_perform, hst]) (by rw [layout_perform, hst'])
    (hact.stores (Element.related_eq _) hst hst' hseated)).mono
      (trace_grows hc hs).2.length_le_after

/-- An allocation is left out. -/
theorem Shrinks.drop (hc : callee.Closed) {d : Decl} {rest rest' : Block}
    (h : Shrinks ev c callee (d.name :: gone) (d.name :: seen) rest rest') :
    Shrinks ev c callee gone seen (.alloc d :: rest) rest' := by
  intro ρ env env' e lay lay' acts hρ henv htidy ht
  obtain ⟨a, e₁, a', e₂, hs, hrest, ⟨⟩⟩ := traceAll_cons.1 ht
  have hnext := htidy.trace hc hs
  obtain ⟨shape, size, -, -, ⟨⟩⟩ := trace_alloc.1 hs
  obtain ⟨x, f, hx, hkept⟩ := h (hρ.forget [⟨d.ty, shape, size⟩])
    (henv.drop_alloc htidy.plain.lt d.name shape lay'.length) hnext hrest
  refine ⟨x, f, hx, fun {α _ st st'} hst hst' hseated => ?_⟩
  have hstart : Seated Eq ρ lay.length ((Action.alloc d.ty shape size).perform st) st' :=
    hseated.append_left (by rw [← Store.length_layout, hst]) _
  have hlay : Store.layout ((Action.alloc d.ty shape size).perform st) =
      lay ++ [⟨d.ty, shape, size⟩] := by
    rw [layout_performAction, hst]
    rfl
  have hend := hkept hlay hst' (by rw [List.length_append]; exact hstart.forget 1 lay'.length)
  rw [List.length_append] at hend
  exact (hend.mono (Nat.le_add_right _ _)).congr fun i hi => (Seat.put_of_lt hi).symm

/-- **A block without its dead allocations** has a trace wherever the block has one, and leaves the
same elements in the tensors that were there before. The induction is along the block; `gone` grows
with each allocation that is left out. -/
theorem dropDead_shrinks (hc : callee.Closed) (hm : callee.Seated) {b : Block}
    (hspare : b.Spares gone) (hfresh : Stmt.FreshAll seen b) :
    Shrinks ev c callee gone seen b (dropDead gone b) := by
  induction b generalizing gone seen with
  | nil =>
    intro ρ env env' e lay lay' acts _ _ _ h
    obtain ⟨⟩ := traceAll_nil.1 h
    exact ⟨[], env', traceAll_nil.2 rfl, fun _ _ hseated => hseated⟩
  | cons s rest ih =>
    have hkeep := (ih hspare.tail hfresh.2).cons hc hm hspare.head
    cases s with
    | alloc d =>
      rw [dropDead]
      split
      next hread => exact hkeep
      next hdead =>
        exact (ih (hspare.tail.cons hfresh.2 (by simpa using hdead)) hfresh.2).drop hc
    | _ => exact hkeep

/-- The same where no name is hidden yet: to the end of the scope, the blocks do the same. -/
theorem dropDead_equiv (hc : callee.Closed) (hm : callee.Seated) {b : Block} {env e : Env}
    {lay : Layout} {acts : List Action} (htidy : env.Tidy seen lay) (hfresh : Stmt.FreshAll seen b)
    (h : traceAll ev c callee env lay b = some (acts, e)) :
    ∃ acts' e', traceAll ev c callee env lay (dropDead [] b) = some (acts', e') ∧
      Equiv lay (scope lay acts) (scope lay acts') := by
  obtain ⟨acts', e', h', hkept⟩ :=
    dropDead_shrinks hc hm (.nil b) hfresh (.refl lay) (.refl env) htidy h
  exact ⟨acts', e', h', .of_seated (traceAll_grows hc _ h) (traceAll_grows hc _ h')
    fun st hst => hkept hst hst (.refl _ st)⟩

end blocks

/-! ## Declarations stay new -/

theorem Stmt.declared_withoutStore (gone : List String) (s : Stmt) :
    (s.flatMap (·.withoutStore gone)).flatMap (·.declared) = s.declared := by
  cases s with
  | store u b idx rhs =>
    rw [flatMap, withoutStore]
    split <;> rfl
  | _ => rfl

theorem Stmt.freshAll_withoutStore (gone : List String) (h : Stmt.FreshAll seen b) :
    Stmt.FreshAll seen (flatMapAll (·.withoutStore gone) b) := by
  induction b using Block.induction generalizing seen with
  | nil => trivial
  | cons s rest ihs ihrest =>
    obtain ⟨hs, hrest⟩ := h
    refine FreshAll.append ?_ (declared_withoutStore gone s) (ihrest hrest)
    cases s with
    | loop hd body => exact ⟨⟨hs.1, ihs body rfl hs.2⟩, trivial⟩
    | guard e body => exact ⟨ihs body rfl hs, trivial⟩
    | alloc d => exact ⟨hs, trivial⟩
    | call t args => exact ⟨trivial, trivial⟩
    | store u b idx rhs =>
      rw [flatMap, withoutStore]
      split
      · trivial
      · exact ⟨trivial, trivial⟩

theorem freshAll_dropDead (h : Stmt.FreshAll seen b) : Stmt.FreshAll seen (dropDead gone b) := by
  induction b generalizing gone seen with
  | nil => trivial
  | cons s rest ih =>
    have hkeep : Stmt.FreshAll seen (s.flatMap (·.withoutStore gone) ++ dropDead gone rest) := by
      refine Stmt.FreshAll.append ?_ (Stmt.declared_withoutStore gone s) (ih h.2)
      simpa [Stmt.flatMapAll] using freshAll_withoutStore gone (b := [s]) ⟨h.1, trivial⟩
    cases s with
    | alloc d =>
      rw [dropDead]
      split
      · exact hkeep
      · exact (ih h.2).mono fun x hx => .tail _ hx
    | _ => exact hkeep

end LoopNest
