import Stateless.Proofs.Table
import Stateless.State.AccessList

/-!
# What access lists list

A list with an account or a slot added lists that and everything it listed before.
-/

namespace Stateless

namespace AccessList

variable {list other : AccessList} {a b : Address} {slot x : Word} {slots : List Word}

/-- The listed addresses. -/
def addresses (list : AccessList) : List Address := list.accounts.keys

theorem nodup_addresses (list : AccessList) : list.addresses.Nodup := list.accounts.nodup_keys

theorem addresses_ne_nil (h : list ≠ empty) : list.addresses ≠ [] := by
  obtain ⟨entries, hincreasing⟩ := list
  intro hnil
  obtain rfl : entries = [] := List.map_eq_nil_iff.1 hnil
  exact h rfl

theorem map_fst_toList (list : AccessList) : list.toList.map Prod.fst = list.addresses :=
  List.map_map ..

theorem mem_addresses_iff : a ∈ list.addresses ↔ list.containsAccount a = true := by
  rw [addresses, Table.mem_keys_iff, containsAccount, Table.contains, Option.isSome_iff_exists]

theorem mem_slots_iff : slot ∈ list.slots a ↔ list.containsSlot a slot = true := by
  rw [slots, Table.mem_keys_iff, containsSlot, Table.contains, Option.isSome_iff_exists]

theorem mem_toList_iff :
    (a, slots) ∈ list.toList ↔ list.containsAccount a = true ∧ slots = list.slots a := by
  simp only [toList, List.mem_map, Prod.exists, Prod.mk.injEq, ← Table.find?_eq_some_iff,
    containsAccount, Table.contains, Option.isSome_iff_exists, AccessList.slots, slotsOf]
  constructor
  · rintro ⟨a, t, ht, rfl, rfl⟩
    exact ⟨⟨t, ht⟩, by rw [ht]; rfl⟩
  · rintro ⟨⟨t, ht⟩, rfl⟩
    exact ⟨a, t, ht, rfl, by rw [ht]; rfl⟩

/-- The account of a listed slot is listed. -/
theorem containsAccount_of_containsSlot (h : list.containsSlot a slot = true) :
    list.containsAccount a = true := by
  rw [containsSlot, slotsOf] at h
  rw [containsAccount, Table.contains]
  cases ha : list.accounts.find? a with
  | none =>
    rw [ha] at h
    cases h
  | some t => rfl

/-- An access list is told by the accounts and the slots that it lists. -/
theorem ext (haccounts : ∀ a, list.containsAccount a = true ↔ other.containsAccount a = true)
    (hslots : ∀ a slot, list.containsSlot a slot = true ↔ other.containsSlot a slot = true) :
    list = other := by
  have htable {t t' : Table Word Unit}
      (h : ∀ slot, t.contains slot = true ↔ t'.contains slot = true) : t = t' := by
    refine Table.eq_of_find?_eq fun slot => ?_
    have hslot := h slot
    unfold Table.contains at hslot
    cases ht : t.find? slot <;> cases ht' : t'.find? slot <;> simp_all
  have hfind (a : Address) : list.accounts.find? a = other.accounts.find? a := by
    have haccount := haccounts a
    have hslot : list.slotsOf a = other.slotsOf a := htable (hslots a)
    unfold containsAccount Table.contains at haccount
    unfold slotsOf at hslot
    cases hlist : list.accounts.find? a with
    | none =>
      cases hother : other.accounts.find? a with
      | none => rfl
      | some t => simp [hlist, hother] at haccount
    | some t =>
      cases hother : other.accounts.find? a with
      | none => simp [hlist, hother] at haccount
      | some t' =>
        rw [hlist, hother] at hslot
        exact congrArg some hslot
  cases list
  cases other
  exact congrArg AccessList.mk (Table.eq_of_find?_eq hfind)

/-! ## Adding -/

theorem containsAccount_addAccount :
    (list.addAccount a).containsAccount b = true ↔ b = a ∨ list.containsAccount b = true := by
  rw [addAccount, containsAccount, Table.insertNew]
  split
  · next h =>
    refine ⟨Or.inr, fun hb => hb.elim (fun hb => ?_) id⟩
    rw [hb]
    exact h
  · rw [containsAccount, Table.contains, Table.find?_insert]
    split <;> simp_all [Table.contains]

theorem slotsOf_addAccount : (list.addAccount a).slotsOf b = list.slotsOf b := by
  rw [addAccount, slotsOf, Table.insertNew]
  split
  · rfl
  · next h =>
    rw [Table.find?_insert]
    split
    · next hb =>
      rw [Table.contains, Bool.not_eq_true, Option.isSome_eq_false_iff, Option.isNone_iff_eq_none,
        ← hb] at h
      rw [slotsOf, h]
      rfl
    · rfl

theorem containsSlot_addAccount :
    (list.addAccount a).containsSlot b x = list.containsSlot b x := by
  rw [containsSlot, slotsOf_addAccount, containsSlot]

theorem containsAccount_addSlot :
    (list.addSlot a slot).containsAccount b = true ↔ b = a ∨ list.containsAccount b = true := by
  rw [addSlot, containsAccount, Table.contains, Table.find?_insert]
  split <;> simp_all [containsAccount, Table.contains]

theorem containsSlot_addSlot : (list.addSlot a slot).containsSlot b x = true ↔
    (b = a ∧ x = slot) ∨ list.containsSlot b x = true := by
  rw [addSlot, containsSlot, slotsOf, Table.find?_insert, containsSlot]
  split
  · next hb =>
    rw [hb, Option.getD_some, Table.contains, Table.find?_insert]
    split <;> simp_all [Table.contains]
  · next hb =>
    simp [hb, slotsOf]

end AccessList

end Stateless
