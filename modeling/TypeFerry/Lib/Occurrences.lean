import Mathlib.Data.List.Dedup
import Mathlib.Data.List.Basic

/-! # First and last occurrences

`List.eraseDups` keeps the first of equal elements and `List.dedup` the last one. What is left is ordered exactly
if these occurrences are. -/
namespace TypeFerry.Lib.Occurrences

variable {α : Type*} [DecidableEq α]

/-- The first occurrences of the elements with `p` are in the order `r`. -/
def FirstsInOrder (r : α → α → Prop) (p : α → Bool) (l : List α) : Prop :=
  ∀ a ∈ l, ∀ b ∈ l, p a = true → p b = true → r a b → l.idxOf a < l.idxOf b

/-- Their last occurrences are. -/
def LastsInOrder (r : α → α → Prop) (p : α → Bool) (l : List α) : Prop :=
  ∀ a ∈ l, ∀ b ∈ l, p a = true → p b = true → r a b → l.reverse.idxOf b < l.reverse.idxOf a

instance (r : α → α → Prop) [DecidableRel r] (p : α → Bool) (l : List α) : Decidable (FirstsInOrder r p l) :=
  inferInstanceAs (Decidable (∀ a ∈ l, ∀ b ∈ l, p a = true → p b = true → r a b → l.idxOf a < l.idxOf b))

instance (r : α → α → Prop) [DecidableRel r] (p : α → Bool) (l : List α) : Decidable (LastsInOrder r p l) :=
  inferInstanceAs (Decidable (∀ a ∈ l, ∀ b ∈ l, p a = true → p b = true → r a b →
    l.reverse.idxOf b < l.reverse.idxOf a))

section
variable {r : α → α → Prop} {p : α → Bool} {a : α} {l : List α}

theorem firstsInOrder_cons_of_neg (h : p a = false) : FirstsInOrder r p (a :: l) ↔ FirstsInOrder r p l := by
  have hne {b : α} (hb : p b = true) : a ≠ b := by
    rintro rfl
    exact Bool.noConfusion (h.symm.trans hb)
  constructor
  · intro hl b hb c hc hpb hpc hbc
    have := hl b (.tail _ hb) c (.tail _ hc) hpb hpc hbc
    rwa [List.idxOf_cons_ne _ (hne hpb), List.idxOf_cons_ne _ (hne hpc), Nat.succ_lt_succ_iff] at this
  · intro hl b hb c hc hpb hpc hbc
    have := hl b (List.mem_of_ne_of_mem (hne hpb).symm hb) c (List.mem_of_ne_of_mem (hne hpc).symm hc) hpb hpc hbc
    rwa [List.idxOf_cons_ne _ (hne hpb), List.idxOf_cons_ne _ (hne hpc), Nat.succ_lt_succ_iff]

theorem firstsInOrder_cons_of_pos (hasymm : ∀ a b, r a b → ¬r b a) (htotal : ∀ a b, a ≠ b → r a b ∨ r b a)
    (h : p a = true) : FirstsInOrder r p (a :: l) ↔
      (∀ b ∈ l, b ≠ a → p b = true → r a b) ∧ FirstsInOrder r (fun b => p b && b != a) l := by
  constructor
  · refine fun hl => ⟨fun b hb hne hpb => ?_, fun b hb c hc hpb hpc hbc => ?_⟩
    · refine (htotal a b hne.symm).resolve_right fun hba => ?_
      have := hl b (.tail _ hb) a (.head _) hpb h hba
      rw [List.idxOf_cons_self] at this
      omega
    · simp only [Bool.and_eq_true, bne_iff_ne] at hpb hpc
      have := hl b (.tail _ hb) c (.tail _ hc) hpb.1 hpc.1 hbc
      rwa [List.idxOf_cons_ne _ hpb.2.symm, List.idxOf_cons_ne _ hpc.2.symm, Nat.succ_lt_succ_iff] at this
  · rintro ⟨hfirst, hl⟩ b hb c hc hpb hpc hbc
    by_cases hca : c = a
    · subst hca
      by_cases hbc' : b = c
      · subst hbc'
        exact absurd hbc (hasymm _ _ hbc)
      · exact absurd (hfirst b (List.mem_of_ne_of_mem hbc' hb) hbc' hpb) (hasymm _ _ hbc)
    · by_cases hba : b = a
      · subst hba
        rw [List.idxOf_cons_self, List.idxOf_cons_ne _ (Ne.symm hca)]
        omega
      · rw [List.idxOf_cons_ne _ (Ne.symm hca), List.idxOf_cons_ne _ (Ne.symm hba), Nat.succ_lt_succ_iff]
        exact hl b (List.mem_of_ne_of_mem hba hb) c (List.mem_of_ne_of_mem hca hc) (by simp [hpb, hba])
          (by simp [hpc, hca]) hbc

/-- Elements in front of the last occurrences do not move them. -/
theorem idxOf_reverse_cons {b : α} (h : b ∈ l) : (a :: l).reverse.idxOf b = l.reverse.idxOf b := by
  rw [List.reverse_cons, List.idxOf_append_of_mem (List.mem_reverse.mpr h)]

theorem lastsInOrder_cons_of_mem (h : p a = true → a ∈ l) : LastsInOrder r p (a :: l) ↔ LastsInOrder r p l := by
  have hmem {b : α} (hpb : p b = true) (hb : b ∈ a :: l) : b ∈ l := by
    rcases List.mem_cons.mp hb with rfl | hb
    · exact h hpb
    · exact hb
  constructor
  · intro hl b hb c hc hpb hpc hbc
    have := hl b (.tail _ hb) c (.tail _ hc) hpb hpc hbc
    rwa [idxOf_reverse_cons hb, idxOf_reverse_cons hc] at this
  · intro hl b hb c hc hpb hpc hbc
    rw [idxOf_reverse_cons (hmem hpb hb), idxOf_reverse_cons (hmem hpc hc)]
    exact hl b (hmem hpb hb) c (hmem hpc hc) hpb hpc hbc

theorem lastsInOrder_cons_of_notMem (hasymm : ∀ a b, r a b → ¬r b a) (htotal : ∀ a b, a ≠ b → r a b ∨ r b a)
    (h : p a = true) (ha : a ∉ l) :
    LastsInOrder r p (a :: l) ↔ (∀ b ∈ l, p b = true → r a b) ∧ LastsInOrder r p l := by
  have hlast : (a :: l).reverse.idxOf a = l.length := by
    rw [List.reverse_cons, List.idxOf_append_of_notMem (by simpa using ha), List.idxOf_cons_self, List.length_reverse,
      Nat.add_zero]
  have hlt {b : α} (hb : b ∈ l) : l.reverse.idxOf b < l.length := by
    simpa using List.idxOf_lt_length_of_mem (List.mem_reverse.mpr hb)
  constructor
  · refine fun hl => ⟨fun b hb hpb => ?_, fun b hb c hc hpb hpc hbc => ?_⟩
    · refine (htotal a b fun heq => ha (heq ▸ hb)).resolve_right fun hba => ?_
      have := hl b (.tail _ hb) a (.head _) hpb h hba
      rw [hlast, idxOf_reverse_cons hb] at this
      exact absurd (hlt hb) (by omega)
    · have := hl b (.tail _ hb) c (.tail _ hc) hpb hpc hbc
      rwa [idxOf_reverse_cons hb, idxOf_reverse_cons hc] at this
  · rintro ⟨hfirst, hl⟩ b hb c hc hpb hpc hbc
    rcases List.mem_cons.mp hc with rfl | hcl
    · rcases List.mem_cons.mp hb with rfl | hbl
      · exact absurd hbc (hasymm _ _ hbc)
      · exact absurd (hfirst b hbl hpb) (hasymm _ _ hbc)
    · rw [idxOf_reverse_cons hcl]
      rcases List.mem_cons.mp hb with rfl | hbl
      · rw [hlast]
        exact hlt hcl
      · rw [idxOf_reverse_cons hbl]
        exact hl b hbl c hcl hpb hpc hbc

end

theorem eraseDups_of_nodup {l : List α} (h : l.Nodup) : l.eraseDups = l := by
  induction l with
  | nil => rfl
  | cons a l ih =>
    obtain ⟨ha, hl⟩ := List.nodup_cons.mp h
    have hfilter : (l.filter fun b => !b == a) = l :=
      List.filter_eq_self.mpr fun b hb => by simpa using fun heq : b = a => ha (heq ▸ hb)
    rw [List.eraseDups_cons, hfilter, ih hl]

section
variable {r : α → α → Prop} (hasymm : ∀ a b, r a b → ¬r b a) (htotal : ∀ a b, a ≠ b → r a b ∨ r b a)
include hasymm htotal

theorem pairwise_eraseDups (p : α → Bool) (l : List α) :
    (l.filter p).eraseDups.Pairwise r ↔ FirstsInOrder r p l := by
  induction l generalizing p with
  | nil => simp [FirstsInOrder]
  | cons a l ih =>
    cases hp : p a with
    | false => rw [List.filter_cons_of_neg (by simp [hp]), ih, firstsInOrder_cons_of_neg hp]
    | true =>
      have hfilter : ((l.filter p).filter fun b => !b == a) = l.filter fun b => p b && b != a := by
        rw [List.filter_filter]
        exact List.filter_congr fun b _ => Bool.and_comm _ _
      rw [List.filter_cons_of_pos hp, List.eraseDups_cons, hfilter, List.pairwise_cons, ih,
        firstsInOrder_cons_of_pos hasymm htotal hp]
      simp only [List.mem_eraseDups, List.mem_filter, Bool.and_eq_true, bne_iff_ne]
      grind

theorem pairwise_dedup (p : α → Bool) (l : List α) : (l.filter p).dedup.Pairwise r ↔ LastsInOrder r p l := by
  induction l with
  | nil => simp [LastsInOrder]
  | cons a l ih =>
    cases hp : p a with
    | false => rw [List.filter_cons_of_neg (by simp [hp]), ih, lastsInOrder_cons_of_mem (by simp [hp])]
    | true =>
      rw [List.filter_cons_of_pos hp]
      by_cases ha : a ∈ l
      · rw [List.dedup_cons_of_mem (List.mem_filter.mpr ⟨ha, hp⟩), ih, lastsInOrder_cons_of_mem fun _ => ha]
      · rw [List.dedup_cons_of_notMem fun h => ha (List.mem_filter.mp h).1, List.pairwise_cons, ih,
          lastsInOrder_cons_of_notMem hasymm htotal hp ha]
        simp only [List.mem_dedup, List.mem_filter, and_imp]

end

end TypeFerry.Lib.Occurrences
