import Mathlib.Data.Set.Insert

/-!
# Slots of names

Things are stored, and some have a name. A name is looked up in slots that hold one thing each,
though several may have it. An exchange takes some things out and puts others in; a thing that
is taken leaves its slot empty, and one that is put in takes the slot of its name.

All names in use can be looked up after an exchange exactly if it spares them: if what is taken
and holds the name of something that stays is not the last to hold it
(`Gortex.Slots.Exchange.complete_iff`).
-/

namespace Gortex

namespace Slots

variable {α β : Type*} (name : α → Option β)

/-- **Every name in use is held** by something. -/
def Complete (stored holds : Set α) : Prop :=
  ∀ a ∈ stored, name a ≠ none → ∃ b ∈ holds, name b = name a

/-- **The names are spared**: where something that holds its name is taken, and nothing of that
name is added, though something of it stays, one that stays holds it as well. -/
def Spares (stored holds taken added : Set α) : Prop :=
  ∀ c ∈ holds, c ∈ taken → (∀ a ∈ added, name a ≠ name c) →
    (∃ m ∈ stored, m ∉ taken ∧ name m = name c) → ∃ h ∈ holds, h ∉ taken ∧ name h = name c

/-- **An exchange** of what is stored and of what holds a name. A slot may pass from a thing
that stays to one of the same name that is added. -/
structure Exchange (stored holds taken added stored' holds' : Set α) : Prop where
  named : ∀ c ∈ holds, name c ≠ none
  stored : ∀ a, a ∈ stored' ↔ (a ∈ stored ∧ a ∉ taken) ∨ a ∈ added
  kept : ∀ c ∈ holds, c ∉ taken → c ∈ holds' ∨ ∃ a ∈ added, name a = name c
  held : ∀ c ∈ holds', (c ∈ holds ∧ c ∉ taken) ∨ c ∈ added
  put : ∀ a ∈ added, name a ≠ none → a ∈ holds'

variable {name} {stored holds taken added stored' holds' : Set α}

/-- What something stays to hold, or something added has, is held after the exchange. -/
theorem Exchange.exists_holds (h : Exchange name stored holds taken added stored' holds') {c : α}
    (hc : c ∈ holds) (ht : c ∉ taken) : ∃ b ∈ holds', name b = name c := by
  rcases h.kept c hc ht with hc' | ⟨a, ha, hname⟩
  · exact ⟨c, hc', rfl⟩
  · exact ⟨a, h.put a ha (hname ▸ h.named c hc), hname⟩

/-- **The names in use are held after an exchange exactly if it spares them.** -/
theorem Exchange.complete_iff (h : Exchange name stored holds taken added stored' holds')
    (hcomplete : Complete name stored holds) :
    Complete name stored' holds' ↔ Spares name stored holds taken added := by
  constructor
  · rintro hafter c hc ht hnew ⟨m, hm, hmt, hname⟩
    obtain ⟨b, hb, hbm⟩ := hafter m ((h.stored m).mpr (Or.inl ⟨hm, hmt⟩)) (hname ▸ h.named c hc)
    rcases h.held b hb with ⟨hb, hbt⟩ | hb
    · exact ⟨b, hb, hbt, hbm.trans hname⟩
    · exact absurd (hbm.trans hname) (hnew b hb)
  · intro hspares a ha hna
    rcases (h.stored a).mp ha with ⟨ha, hat⟩ | ha
    · obtain ⟨b, hb, hba⟩ := hcomplete a ha hna
      rw [← hba]
      by_cases hbt : b ∈ taken
      · by_cases hnew : ∃ a' ∈ added, name a' = name b
        · obtain ⟨a', ha', hname⟩ := hnew
          exact ⟨a', h.put a' ha' (hname ▸ h.named b hb), hname⟩
        · -- the holder is taken, and so another one that stays has the name
          obtain ⟨c, hc, hct, hcb⟩ := hspares b hb hbt (fun a' ha' hname => hnew ⟨a', ha', hname⟩)
            ⟨a, ha, hat, hba.symm⟩
          rw [← hcb]
          exact h.exists_holds hc hct
      · exact h.exists_holds hb hbt
    · exact ⟨a, h.put a ha hna, rfl⟩

end Slots

end Gortex
