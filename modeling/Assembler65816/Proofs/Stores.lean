import Assembler65816.Proofs.StringData
import Assembler65816.Proofs.Window

/-! # Storing runs, all or nothing

Addresses are counted as numbers here, so that a run and a window may both reach past the top of the
address space. A run is stored if the window has a place for each of its bytes, and then it replaces
exactly those. Else the image stays as it is and the run is refused; where the saturated bounds hide
that it does not fit, it is an overrun.
-/
namespace Assembler65816

namespace Image

def InWindow (i : Image) (place : Nat) : Prop :=
  i.base.toNat ≤ place ∧ place < i.base.toNat + i.bytes.size

def byte? (i : Image) (place : Nat) : Option UInt8 :=
  if i.base.toNat ≤ place then i.bytes[place - i.base.toNat]? else none

/-- A run of the given length starts in the window and passes the top of the address space, which
lies in the window, and then the end of the window. -/
structure Overruns (i : Image) (address : UInt32) (count : Nat) : Prop where
  first : i.InWindow address.toNat
  past : 2 ^ 32 - 1 < address.toNat + count - 1
  top : i.InWindow (2 ^ 32 - 1)
  beyond : i.bytes.size < address.toNat - i.base.toNat + count

theorem Overruns.not_hasRoom {i : Image} {address : UInt32} {count : Nat}
    (h : i.Overruns address count) : ¬ i.HasRoom address count := by
  intro room
  have last := room (count - 1) (by have := h.past; have := address.toNat_lt; omega)
  have beyond := h.beyond
  have first := h.first.1
  omega

section Locate

variable {i : Image} {address : UInt32} {run : List UInt8}

theorem contains_iff (small : i.bytes.size < 2 ^ 32) :
    i.contains address = true ↔ i.InWindow address.toNat :=
  ⟨bounds_of_contains, fun h => contains_of_bounds small h.1 h.2⟩

/-- The saturated address of a last byte is the address or the top of the address space. -/
theorem toNat_last (address : UInt32) (short : run.length < 2 ^ 32) :
    (saturatingAdd address (UInt32.ofNat (run.length - 1))).toNat =
      min (address.toNat + (run.length - 1)) (2 ^ 32 - 1) := by
  have count : (UInt32.ofNat (run.length - 1)).toNat = run.length - 1 :=
    UInt32.toNat_ofNat_of_lt' (show run.length - 1 < 2 ^ 32 by omega)
  rw [saturatingAdd, count]
  split
  · next below =>
    change _ < 2 ^ 32 at below
    rw [UInt32.toNat_add, count, Nat.mod_eq_of_lt below]
    omega
  · next above =>
    change ¬ _ < 2 ^ 32 at above
    change 2 ^ 32 - 1 = _
    omega

/-- What becomes of a run: which addresses are checked, and what is left to the buffer. -/
theorem locate_cases (small : i.bytes.size < 2 ^ 32) (address : UInt32)
    (short : run.length < 2 ^ 32) (some : run ≠ []) :
    (i.HasRoom address run.length ∧ ∃ start, i.locate address run = .ok start) ∨
    (i.Overruns address run.length ∧ i.locate address run = .error .overrun) ∨
    (¬ i.HasRoom address run.length ∧ ¬ i.Overruns address run.length ∧
      ∃ outside, i.locate address run = .error (.outside outside)) := by
  have positive : 0 < run.length := List.length_pos_iff.mpr some
  by_cases room : i.HasRoom address run.length
  · obtain ⟨start, located, _⟩ := locate_of_hasRoom small room
    exact Or.inl ⟨room, start, located⟩
  · right
    have last := toNat_last address short
    have nonempty : ¬ run.isEmpty = true := by simpa using some
    rw [locate, if_neg nonempty]
    dsimp only
    by_cases first : i.contains address = true
    · have start := (contains_iff small).mp first
      rw [if_neg (by simp [first]), UInt32.toNat_sub_of_le _ _ (UInt32.le_iff_toNat_le.mpr start.1)]
      by_cases final : i.contains (saturatingAdd address (UInt32.ofNat (run.length - 1))) = true
      · -- Both bounds hold without room for the run, so the last address is saturated.
        left
        have inside := (contains_iff small).mp final
        rw [last] at inside
        have beyond : i.bytes.size < address.toNat - i.base.toNat + run.length := by
          by_contra within
          apply room
          intro k lt
          have := start.1
          omega
        have past : 2 ^ 32 - 1 < address.toNat + run.length - 1 := by
          have := start.1
          have := inside.2
          omega
        rw [Nat.min_eq_right (by omega)] at inside
        rw [if_neg (by simp [final]), if_pos beyond]
        exact ⟨⟨start, past, inside, beyond⟩, rfl⟩
      · right
        rw [if_pos (by simpa using final)]
        refine ⟨room, fun overrun => final ?_, _, rfl⟩
        rw [contains_iff small, last, Nat.min_eq_right (by have := overrun.past; omega)]
        exact overrun.top
    · right
      rw [if_pos (by simpa using first)]
      exact ⟨room, fun overrun => first ((contains_iff small).mpr overrun.first), _, rfl⟩

theorem store_ok {stored : Image} (h : i.store address run = .ok stored) :
    ∃ start, i.locate address run = .ok start ∧ stored = i.overwrite start run := by
  rw [store] at h
  cases located : i.locate address run with
  | error e =>
    rw [located] at h
    cases h
  | ok start =>
    rw [located] at h
    cases h
    exact ⟨start, rfl, rfl⟩

theorem store_of_locate_ok {start : Nat} (h : i.locate address run = .ok start) :
    i.store address run = .ok (i.overwrite start run) := by
  rw [store, h]
  rfl

theorem store_of_locate_error {e : StoreError} (h : i.locate address run = .error e) :
    i.store address run = .error e := by
  rw [store, h]
  rfl

/-- What a stored run leaves at each place: its own bytes, and the old ones elsewhere. -/
theorem byte?_overwrite {start : Nat} (h : i.locate address run = .ok start) (place : Nat) :
    (i.overwrite start run).byte? place =
      if address.toNat ≤ place ∧ place < address.toNat + run.length then
        run[place - address.toNat]?
      else i.byte? place := by
  have written := getElem?_overwrite h (place - i.base.toNat)
  have base : (i.overwrite start run).base = i.base := rfl
  unfold byte?
  rw [base]
  by_cases based : i.base.toNat ≤ place
  · rw [if_pos based, if_pos based, written, byteAt, Nat.add_sub_cancel' based]
    by_cases here : address.toNat ≤ place
    · by_cases within : place < address.toNat + run.length
      · rw [if_pos here, if_pos ⟨here, within⟩, List.getElem?_eq_getElem (by omega)]
        rfl
      · rw [if_pos here, if_neg (fun both => within both.2), List.getElem?_eq_none (by omega)]
        rfl
    · rw [if_neg here, if_neg (fun both => here both.1)]
      rfl
  · rw [if_neg based, if_neg based]
    rcases locate_ok h with rfl | ⟨same, _⟩
    · simp
    · rw [if_neg (by omega)]

end Locate

end Image

/-- A line stores its bytes at the location counter as the image does; if that fails, the work stays
as it was. -/
theorem Step.emit_store {w : Work} {pc : UInt32} (placed : w.counter = some pc) (run : List UInt8) :
    (Step.emit run).run w = match w.image.store pc run with
      | .ok image => (.ok (), { w with image, counter := some (pc + UInt32.ofNat run.length) })
      | .error (.outside address) => (.error (.fault (w.image.outsideFault address)), w)
      | .error .overrun => (.error .overrun, w) := by
  cases located : w.image.locate pc run with
  | ok start =>
    rw [emit_run placed located, Image.store_of_locate_ok located]
  | error e =>
    rw [Image.store_of_locate_error located]
    unfold emit
    rw [run_bind_of_ok (get_run w)]
    simp only [placed, located]
    cases e <;> rfl

/-- A run is stored whole or not at all, whatever the window and the address. -/
theorem Image.store_whole_or_not {i : Image} (small : i.bytes.size < 2 ^ 32) (address : UInt32)
    {run : List UInt8} (short : run.length < 2 ^ 32) :
    (run = [] → i.store address run = .ok i) ∧
    (run ≠ [] →
      ((∃ stored, i.store address run = .ok stored) ↔
        ∀ k < run.length, i.InWindow (address.toNat + k)) ∧
      (i.store address run = .error .overrun ↔ i.Overruns address run.length) ∧
      ((∃ outside, i.store address run = .error (.outside outside) ∧
          (i.outsideFault outside).kind = .romBounds) ↔
        ¬ (∀ k < run.length, i.InWindow (address.toNat + k)) ∧
          ¬ i.Overruns address run.length)) ∧
    (∀ stored, i.store address run = .ok stored →
      stored.base = i.base ∧ stored.fill = i.fill ∧ stored.bytes.size = i.bytes.size ∧
      ∀ place, stored.byte? place =
        if address.toNat ≤ place ∧ place < address.toNat + run.length then
          run[place - address.toNat]?
        else i.byte? place) ∧
    ∀ (w : Work) (e : StoreError), w.image = i → w.counter = some address →
      i.store address run = .error e → ((Step.emit run).run w).2 = w := by
  refine ⟨?_, ?_, ?_, ?_⟩
  · rintro rfl
    rfl
  · intro some
    rcases locate_cases small address short some with
      ⟨room, start, located⟩ | ⟨overrun, located⟩ | ⟨room, overrun, outside, located⟩
    · rw [store_of_locate_ok located]
      have stays : ¬ i.Overruns address run.length := fun overrun => overrun.not_hasRoom room
      exact ⟨⟨fun _ => room, fun _ => ⟨_, rfl⟩⟩, ⟨nofun, fun overrun => absurd overrun stays⟩,
        ⟨nofun, fun refused => absurd room refused.1⟩⟩
    · rw [store_of_locate_error located]
      exact ⟨⟨nofun, fun room => absurd room overrun.not_hasRoom⟩, ⟨fun _ => overrun, fun _ => rfl⟩,
        ⟨nofun, fun refused => absurd overrun refused.2⟩⟩
    · rw [store_of_locate_error located]
      exact ⟨⟨nofun, fun inside => absurd inside room⟩, ⟨nofun, fun h => absurd h overrun⟩,
        ⟨fun _ => ⟨room, overrun⟩, fun _ => ⟨outside, rfl, rfl⟩⟩⟩
  · intro stored h
    obtain ⟨start, located, rfl⟩ := store_ok h
    exact ⟨rfl, rfl, size_write _ _ _, byte?_overwrite located⟩
  · intro w e same placed h
    subst same
    rw [Step.emit_store placed, h]
    cases e <;> rfl

/-- Four bytes at the last but one address of a window that ends at the top. -/
theorem Image.store_whole_or_not_top :
    let i := Image.new 0xFFFFFFF0 16 0xEA
    let run : List UInt8 := [1, 2, 3, 4]
    i.bytes.size < 2 ^ 32 ∧ run.length < 2 ^ 32 ∧ i.Overruns 0xFFFFFFFE 4 ∧
      i.store 0xFFFFFFFE run = .error .overrun ∧ ¬ i.InWindow (0xFFFFFFFE + 3) := by
  intro i run
  have small : i.bytes.size < 2 ^ 32 := by decide
  have short : run.length < 2 ^ 32 := by decide
  have overrun : i.Overruns 0xFFFFFFFE 4 := by
    constructor
    · exact ⟨by decide, by decide⟩
    · decide
    · exact ⟨by decide, by decide⟩
    · decide
  have some : run ≠ [] := by decide
  have result := ((store_whole_or_not small 0xFFFFFFFE short).2.1 some).2.1.mpr overrun
  exact ⟨small, short, overrun, result, fun inside => absurd inside.2 (by decide)⟩

end Assembler65816
