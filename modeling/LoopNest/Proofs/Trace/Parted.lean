import LoopNest.Proofs.Trace.Reseat

/-!
# Tensors in parts

A tensor of extent `m` in one dimension has the elements of `m` tensors without that dimension. The
element with the index `k` there lies in part `k`, at the place that the other indices give: for indices
into the tensor as a whole, and for views that fix the dimension.

The parts stand in the layout where the tensor stood, and the tensors from behind it follow them
(`Seats.parted`).
-/

namespace LoopNest

/-! ## Leaving out a dimension -/

theorem forall₂_eraseIdx {α β : Type} {R : α → β → Prop} {l : List α} {l' : List β}
    (h : List.Forall₂ R l l') (i : Nat) :
    (∀ a, l[i]? = some a → ∃ b, l'[i]? = some b ∧ R a b) ∧
      List.Forall₂ R (l.eraseIdx i) (l'.eraseIdx i) := by
  induction h generalizing i with
  | nil => exact ⟨nofun, .nil⟩
  | @cons a b _ _ hab h ih =>
    cases i with
    | zero => exact ⟨fun _ ha => ⟨b, rfl, Option.some.inj ha ▸ hab⟩, h⟩
    | succ i => exact (ih i).imp_right (.cons hab)

namespace View

/-- The coordinates in a whole tensor are the index, and leaving out a dimension leaves out its
coordinate. -/
theorem Finds.whole {shape : List Nat} {ns cs : List Word}
    (h : Finds (shape.map fun n => .free 0 (Int64.ofNat n)) ns cs) :
    cs = ns ∧ ∀ dim, Finds ((shape.eraseIdx dim).map fun n => .free 0 (Int64.ofNat n))
      (ns.eraseIdx dim) (ns.eraseIdx dim) := by
  induction shape generalizing ns cs with
  | nil =>
    cases h
    exact ⟨rfl, fun _ => .nil⟩
  | cons n shape ih =>
    obtain _ | _ | @⟨_, _, i, c, _, _, _, hlo, hhi, hc, h⟩ := h
    obtain rfl : c = i := Int64.toInt_inj.1 (hc.trans (Int.zero_add _))
    obtain ⟨rfl, herase⟩ := ih h
    refine ⟨rfl, fun dim => ?_⟩
    cases dim with
    | zero => exact h
    | succ dim => exact .free hlo hhi hc (herase dim)

/-- Fixing a dimension of a whole tensor is taking a part. -/
theorem Narrows.whole {shape : List Nat} {cuts : List Cut} {dims : List ViewDim} {dim : Nat}
    {k : Word} (hk : cuts[dim]? = some (.point k))
    (h : Narrows (shape.map fun n => .free 0 (Int64.ofNat n)) cuts dims) :
    dims[dim]? = some (.fixed k) ∧
      Narrows ((shape.eraseIdx dim).map fun n => .free 0 (Int64.ofNat n)) (cuts.eraseIdx dim)
        (dims.eraseIdx dim) := by
  induction shape generalizing cuts dims dim with
  | nil =>
    cases h
    cases hk
  | cons n shape ih =>
    cases h with
    | point hlo hhi hc h =>
      cases dim with
      | zero =>
        cases hk
        rw [Int64.toInt_inj.1 (hc.trans (Int.zero_add _))]
        exact ⟨rfl, h⟩
      | succ dim =>
        have hk := List.getElem?_cons_succ.symm.trans hk
        exact (ih hk h).imp_right (.point hlo hhi hc)
    | range hlo hle hhi hstart hcount h =>
      cases dim with
      | zero => cases hk
      | succ dim =>
        have hk := List.getElem?_cons_succ.symm.trans hk
        exact (ih hk h).imp_right (.range hlo hle hhi hstart hcount)

end View

/-- There is room for a part of a tensor that there is room for. -/
theorem Tensor.size?_eraseIdx {shape : List Nat} {dim e n : Nat} (hdim : shape[dim]? = some e)
    (he : 1 ≤ e) (h : size? shape = some n) : ∃ m, size? (shape.eraseIdx dim) = some m := by
  let times (n extent : Nat) : Option Nat := if n * extent < 2 ^ 64 then some (n * extent) else none
  -- a smaller number times the same extents stays smaller
  have hstep : ∀ {m m' k extent : Nat}, m' ≤ m → times m extent = some k →
      k = m * extent ∧ times m' extent = some (m' * extent) ∧ m' * extent ≤ k := by
    intro m m' k extent hle hk
    obtain ⟨hlt, hk⟩ := Option.ite_none_right_eq_some.1 hk
    obtain rfl := Option.some.inj hk
    have hle' : m' * extent ≤ m * extent := Nat.mul_le_mul_right extent hle
    exact ⟨rfl, if_pos (Nat.lt_of_le_of_lt hle' hlt), hle'⟩
  have hmono : ∀ {shape : List Nat} {m m' k : Nat}, m' ≤ m → shape.foldlM times m = some k →
      ∃ k' ≤ k, shape.foldlM times m' = some k' := by
    intro shape
    induction shape with
    | nil =>
      rintro m m' k hle ⟨⟩
      exact ⟨m', hle, rfl⟩
    | cons extent shape ih =>
      intro m m' k hle hfold
      obtain ⟨l, hl, hfold⟩ := Option.bind_eq_some_iff.1 hfold
      obtain ⟨-, hl', hle'⟩ := hstep hle hl
      obtain ⟨k', hk', hfold'⟩ := ih hle' hfold
      exact ⟨k', hk', by rw [List.foldlM_cons, hl']; exact hfold'⟩
  have herase : ∀ {shape : List Nat} {dim m m' k : Nat}, shape[dim]? = some e → m' ≤ m →
      shape.foldlM times m = some k → ∃ k' ≤ k, (shape.eraseIdx dim).foldlM times m' = some k' := by
    intro shape
    induction shape with
    | nil => nofun
    | cons extent shape ih =>
      intro dim m m' k hdim hle hfold
      obtain ⟨l, hl, hfold⟩ := Option.bind_eq_some_iff.1 hfold
      obtain ⟨rfl, hl', hle'⟩ := hstep hle hl
      cases dim with
      | zero =>
        cases hdim
        exact hmono (Nat.le_trans hle (Nat.le_mul_of_pos_right m he)) hfold
      | succ dim =>
        obtain ⟨k', hk', hfold'⟩ := ih (List.getElem?_cons_succ.symm.trans hdim) hle' hfold
        exact ⟨k', hk', by rw [List.eraseIdx_cons_succ, List.foldlM_cons, hl']; exact hfold'⟩
  obtain ⟨hproduct, hroom⟩ := Option.filter_eq_some_iff.1 h
  obtain ⟨m, hm, hproduct'⟩ := herase hdim (Nat.le_refl 1) hproduct
  have hroom := of_decide_eq_true hroom
  exact ⟨m, Option.filter_eq_some_iff.2 ⟨hproduct', decide_eq_true (by omega)⟩⟩

/-- An index into a tensor that sits apart leads, with the coordinate of the part left out, to the
same element of the part. -/
theorem Seat.Holds.place_part {lay lay' : Layout} {i dim first : Nat} {shape : List Nat}
    (hholds : ∀ s, lay[i]? = some s → (Seat.apart shape dim first).Holds lay' s)
    {name : String} {ns : List Word} {k : Word} (hk : ns[dim]? = some k) {p : Place}
    (hp : (View.whole i name shape).place? lay ns = some p) (part : String) :
    p.1 = i ∧ ∃ q, (Seat.apart shape dim first).Lies p.2 q ∧
      (View.whole (first + k.toInt.toNat) part (shape.eraseIdx dim)).place? lay'
        (ns.eraseIdx dim) = some q := by
  obtain ⟨cs, s, hcs, hs, ho, hnumber⟩ := View.place?_eq_some.1 hp
  obtain ⟨rfl, herase⟩ := View.Finds.whole hcs
  obtain ⟨rfl, hparts⟩ := hholds s hs
  obtain ⟨⟨n, hn, -, hlt⟩, o', ho'⟩ := Tensor.offsetFrom?_eraseIdx ho hk
  obtain ⟨size, hslot, -⟩ := hparts n _ hn hlt
  exact ⟨hnumber, (first + k.toInt.toNat, o'), ⟨cs, k, ho, hk, rfl, ho'⟩,
    View.place?_eq_some.2 ⟨_, _, herase dim, hslot, ho', rfl⟩⟩

/-! ## The seats of the parts -/

namespace Seat

variable {m dim : Nat} {shape : List Nat}

/-- An element of a tensor that sits apart lies in one of the parts. -/
theorem Lies.mem_parts {first o : Nat} {q : Place} (h : (apart shape dim first).Lies o q)
    (hm : shape[dim]? = some m) : first ≤ q.1 ∧ q.1 < first + m := by
  obtain ⟨cs, k, hcs, hk, hq, -⟩ := h
  obtain ⟨⟨m', hm', -, hlt⟩, -⟩ := Tensor.offsetFrom?_eraseIdx hcs hk
  obtain rfl := Option.mem_unique hm hm'
  omega

/-- Different elements of a tensor that sits apart lie at different places. -/
theorem Lies.inj_apart {first o o' : Nat} {q : Place} (h : (apart shape dim first).Lies o q)
    (h' : (apart shape dim first).Lies o' q) : o = o' := by
  obtain ⟨cs, k, hcs, hk, hq, ho⟩ := h
  obtain ⟨cs', k', hcs', hk', hq', ho'⟩ := h'
  obtain ⟨⟨-, -, hnonneg, -⟩, -⟩ := Tensor.offsetFrom?_eraseIdx hcs hk
  obtain ⟨⟨-, -, hnonneg', -⟩, -⟩ := Tensor.offsetFrom?_eraseIdx hcs' hk'
  obtain rfl : k = k' := Int64.toInt_inj.1 (by omega)
  obtain ⟨-, herase⟩ := Tensor.offsetFrom?_inj ho ho'
  have hinsert : ∀ {cs : List Word}, cs[dim]? = some k → (cs.eraseIdx dim).insertIdx dim k = cs := by
    intro cs hk
    obtain ⟨hlt, rfl⟩ := List.getElem?_eq_some_iff.1 hk
    exact List.insertIdx_eraseIdx_getElem hlt
  obtain rfl : cs = cs' := by rw [← hinsert hk, ← hinsert hk', herase]
  exact Option.mem_unique hcs hcs'

end Seat

section parted

variable {lay : Layout} {ty : Scalar} {shape : List Nat} {dim m size part : Nat}

/-- The tensor behind the first ones sits apart, in `m` parts from there on. -/
theorem Seats.parted (hm : shape[dim]? = some m)
    (hpart : 0 < m → Tensor.size? (shape.eraseIdx dim) = some part) :
    Seats (Seat.put .whole lay.length 1 (lay.length + m) (.apart shape dim lay.length))
      (lay ++ [⟨ty, shape, size⟩]) (lay ++ List.replicate m ⟨ty, shape.eraseIdx dim, part⟩) := by
  have hlen : (lay ++ List.replicate m (⟨ty, shape.eraseIdx dim, part⟩ : Slot)).length =
      lay.length + m := by simp
  rw [← hlen]
  change Seats (Seat.put _ _ [(⟨ty, shape, size⟩ : Slot)].length _ _) _ _
  refine .put (fun {i s} hs => ?_) (fun _ _ => (Seats.refl lay).inj) (fun s hs => ?_)
    fun {o q} hq => ⟨rfl, fun o' hq' => hq'.inj_apart hq, fun i o' hi hq' => ?_⟩
  · rw [Seat.holds_whole, List.getElem?_append_left (List.getElem?_eq_some_iff.1 hs).1, hs]
  · obtain rfl := List.mem_singleton.1 hs
    refine ⟨rfl, fun m' k hm' hk => ⟨part, ?_, fun cs o ho => ?_⟩⟩
    · obtain rfl := Option.mem_unique hm hm'
      rw [List.getElem?_append_right (Nat.le_add_right _ _), Nat.add_sub_cancel_left,
        List.getElem?_replicate_of_lt hk]
    · obtain rfl := Option.mem_unique hm hm'
      exact Tensor.lt_of_offsetFrom? (hpart (by omega)) ho
  · obtain rfl := Seat.lies_whole.1 hq'
    have hle := (hq.mem_parts hm).1
    simp only at hle
    omega

/-- The tensors from before are there, and nothing has been written to the others. -/
theorem Seated.parted {α : Type} [Element α] (st : Store α) (hm : shape[dim]? = some m)
    (hpart : 0 < m → Tensor.size? (shape.eraseIdx dim) = some part) :
    Seated Eq (Seat.put .whole st.length 1 (st.length + m) (.apart shape dim st.length))
      (st.length + 1) (st ++ [⟨ty, shape, Array.replicate size Element.undefined⟩])
      (st ++ List.replicate m
        ⟨ty, shape.eraseIdx dim, Array.replicate part Element.undefined⟩) := by
  refine Seated.put (fun i o x q hi hq hx => ?_) (fun i o x q hle hlt hq hx => ?_) _
  · rw [Seat.lies_whole.1 hq, Store.at?_append hi]
    rw [Store.at?_append hi] at hx
    exact ⟨x, hx, rfl⟩
  · obtain rfl : i = st.length := by omega
    obtain ⟨hfirst, hlast⟩ := hq.mem_parts hm
    obtain ⟨cs, k, hcs, hk, -, ho⟩ := hq
    have hq' := Tensor.lt_of_offsetFrom? (hpart (by omega)) ho
    have hslot : (st ++ List.replicate m (Tensor.mk ty (shape.eraseIdx dim)
        (Array.replicate part (Element.undefined : α))))[q.1]? =
          some ⟨ty, shape.eraseIdx dim, Array.replicate part Element.undefined⟩ := by
      rw [List.getElem?_append_right hfirst, List.getElem?_replicate_of_lt (by omega)]
    refine ⟨Element.undefined, by simp [Store.at?, hslot, hq'], ?_⟩
    simp only [Store.at?, List.getElem?_concat_length, Option.bind_some] at hx
    obtain ⟨_, rfl⟩ := Array.getElem?_eq_some_iff.1 hx
    rw [Array.getElem_replicate]

end parted

end LoopNest
