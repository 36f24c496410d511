import LoopNest.Proofs.Trace.Seat

/-!
# Slices of a tensor

A tensor that exists in the second run only is filled slice by slice: of two runs with their tensors
in seats, the second one uses part of it in the place of tensors that the first one allocates on the
way. `Fills` says that the elements from `lo` up to `hi` are all of it that is touched, and that the
runs stay related as long as these start out as new elements do.

Rounds that use slices of their own use one slice together (`Fills.rounds`).
-/

namespace LoopNest

/-! ## Filling a slice -/

section fills

variable {α β : Type} [Element α] [Element β] {R : α → β → Prop} {ρ : Nat → Seat}
  {J lo hi : Nat} {lay lay' : Layout} {a a' b b' : List Action}

/-- Elements of the slice are related to those of a new tensor. -/
def Blank (R : α → β → Prop) (J lo hi : Nat) (st : Store β) : Prop :=
  ∀ o y, lo ≤ o → o < hi → st.at? (J, o) = some y → R Element.undefined y

/-- Elements that are not written stay blank. -/
theorem Blank.perform {st : Store β} (h : Blank R J lo hi st) (hJ : J < st.length)
    (ha : Grows st.layout a) (hw : ∀ o, lo ≤ o → o < hi → (J, o) ∉ written a) :
    Blank R J lo hi (perform a st) := by
  intro o y hlo hhi hy
  have hmarks : ∀ m, Action.release m ∈ a → st.length ≤ m := by
    rw [← Store.length_layout]
    exact ha.marks
  rw [at?_perform_of_not_written hJ .refl hmarks (hw o hlo hhi)] at hy
  exact h o y hlo hhi hy

/-- Of the tensor `J` the second list writes only the slice from `lo` up to `hi`, and where this is
blank, both keep elements related. -/
structure Fills (R : α → β → Prop) (ρ : Nat → Seat) (J lo hi : Nat) (lay lay' : Layout)
    (acts acts' : List Action) : Prop where
  writes : ∀ o, (J, o) ∈ written acts' → lo ≤ o ∧ o < hi
  stores : ∀ {st : Store α} {st' : Store β}, st.layout = lay → st'.layout = lay' →
    Seated R ρ lay.length st st' → Blank R J lo hi st' →
      Seated R ρ lay.length (perform acts st) (perform acts' st')

namespace Fills

section aside

variable (hR : Element.Related R) (haway : ∀ {i o q}, (ρ i).Lies o q → q.1 ≠ J)

include hR haway

/-- Lists that do not write the tensor. -/
theorem of_reseats (h : Reseats ρ lay lay' a a') (ha : Grows lay a) :
    Fills R ρ J lo hi lay lay' a a' :=
  ⟨fun _ hmem => (h.writes _ hmem).elim fun _ hp => absurd rfl (haway hp.1),
    fun hst hst' hc _ => (h.stores hR hst hst' hc).mono ha.length_le_after⟩

/-- Other actions may go before, -/
theorem behind (ha : Reseats ρ lay lay' a a') (hgrow : Grows lay a) (hgrow' : Grows lay' a')
    (hJ : J < lay'.length) (hb : Fills R ρ J lo hi (lay.after a) (lay'.after a') b b') :
    Fills R ρ J lo hi lay lay' (a ++ b) (a' ++ b') := by
  have hnot : ∀ o, (J, o) ∉ written a' := fun o hmem =>
    (ha.writes _ hmem).elim fun _ hp => haway hp.1 rfl
  refine ⟨fun o hmem => ?_, fun {st st'} hst hst' hc hblank => ?_⟩
  · rw [written_append, List.mem_append] at hmem
    exact hb.writes o (hmem.resolve_left (hnot o))
  · rw [perform_append, perform_append]
    have hblank' : Blank R J lo hi (perform a' st') := by
      refine hblank.perform ?_ (hst' ▸ hgrow') fun o _ _ => hnot o
      rwa [← Store.length_layout, hst']
    exact (hb.stores (by rw [layout_perform, hst]) (by rw [layout_perform, hst'])
      (ha.stores hR hst hst' hc) hblank').mono hgrow.length_le_after

/-- and after. -/
theorem append (ha : Fills R ρ J lo hi lay lay' a a') (hclose : Closes lay a)
    (hclose' : Closes lay' a') (hb : Reseats ρ lay lay' b b') (hgrow : Grows lay b) :
    Fills R ρ J lo hi lay lay' (a ++ b) (a' ++ b') := by
  refine ⟨fun o hmem => ?_, fun {st st'} hst hst' hc hblank => ?_⟩
  · rw [written_append, List.mem_append] at hmem
    exact ha.writes o (hmem.resolve_right fun hmem =>
      (hb.writes _ hmem).elim fun _ hp => haway hp.1 rfl)
  · rw [perform_append, perform_append]
    exact (hb.stores hR (by rw [layout_perform, hst, hclose.after])
      (by rw [layout_perform, hst', hclose'.after])
      (ha.stores hst hst' hc hblank)).mono hgrow.length_le_after

end aside

theorem scope (h : Fills R ρ J lo hi lay lay' a a') (hρ : Seats ρ lay lay') :
    Fills R ρ J lo hi lay lay' (scope lay a) (scope lay' a') := by
  refine ⟨fun o hmem => ?_, fun hst hst' hc hblank => ?_⟩
  · simp only [LoopNest.scope, written_append, List.mem_append] at hmem
    exact h.writes o (hmem.resolve_right (by simp [written, Action.written]))
  · simp only [LoopNest.scope, perform_append, perform_cons, perform_nil, Action.perform]
    exact (h.stores hst hst' hc hblank).take hρ

/-- **Rounds.** Each fills a slice of its own, or what is there before does not matter. -/
theorem rounds {g g' : Nat → List Action} {n : Nat} {los his : Nat → Nat} (hJ : J < lay'.length)
    (hclosed : ∀ k < n, Closes lay (g k) ∧ Closes lay' (g' k))
    (h : ∀ k < n, Fills R ρ J (los k) (his k) lay lay' (g k) (g' k))
    (hin : ∀ k < n, lo ≤ los k ∧ his k ≤ hi)
    (hapart : (∀ y, R Element.undefined y) ∨ ∀ j k, j < k → k < n → his j ≤ los k) :
    Fills R ρ J lo hi lay lay' ((List.range n).flatMap g) ((List.range n).flatMap g') := by
  have hwritten : ∀ m ≤ n, ∀ o, (J, o) ∈ written ((List.range m).flatMap g') →
      ∃ k < m, los k ≤ o ∧ o < his k := by
    intro m hm o hmem
    obtain ⟨act, hact, ho⟩ := List.mem_flatMap.1 hmem
    obtain ⟨k, hk, hact⟩ := List.mem_flatMap.1 hact
    have hlt := List.mem_range.1 hk
    exact ⟨k, hlt, (h k (by omega)).writes o (List.mem_flatMap.2 ⟨act, hact, ho⟩)⟩
  refine ⟨fun o hmem => ?_, fun {st st'} hst hst' hc hblank => ?_⟩
  · obtain ⟨k, hk, hbounds⟩ := hwritten n (Nat.le_refl n) o hmem
    have hslice := hin k hk
    omega
  -- after some of the rounds, the slices of all others are blank
  suffices hall : ∀ m ≤ n, Seated R ρ lay.length (perform ((List.range m).flatMap g) st)
      (perform ((List.range m).flatMap g') st') from hall n (Nat.le_refl n)
  intro m
  induction m with
  | zero => exact fun _ => hc
  | succ m ih =>
    intro hm
    have hbefore := ih (by omega)
    have hclose : Closes lay ((List.range m).flatMap g) :=
      .flatMap fun k hk => (hclosed k (by have := List.mem_range.1 hk; omega)).1
    have hclose' : Closes lay' ((List.range m).flatMap g') :=
      .flatMap fun k hk => (hclosed k (by have := List.mem_range.1 hk; omega)).2
    rw [List.range_succ, List.flatMap_append, List.flatMap_append, perform_append, perform_append,
      List.flatMap_singleton, List.flatMap_singleton]
    refine (h m (by omega)).stores ?_ ?_ hbefore ?_
    · rw [layout_perform, hst, hclose.after]
    · rw [layout_perform, hst', hclose'.after]
    · obtain hany | hapart := hapart
      · exact fun _ y _ _ _ => hany y
      · have hslice := hin m (by omega)
        have hblank' : Blank R J (los m) (his m) st' :=
          fun o y hlo hhi => hblank o y (by omega) (by omega)
        refine hblank'.perform ?_ (hst' ▸ hclose'.grows) fun o hlo hhi hmem => ?_
        · rwa [← Store.length_layout, hst']
        · obtain ⟨k, hk, hbounds⟩ := hwritten m (by omega) o hmem
          have hle := hapart k m hk (by omega)
          omega

end Fills

end fills

end LoopNest
