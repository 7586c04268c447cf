import Mathlib.Data.List.Forall2
import Mathlib.Tactic

/-!
# Lists that match entry by entry

Look-ups and chains for `List.Forall₂`, and a list of which one entry changes.
-/

namespace Tripwire

variable {α β γ : Type} {R : α → β → Prop} {S : β → γ → Prop} {T : α → γ → Prop}

theorem exists_of_mem_right {l : List α} {m : List β} {b : β} (h : List.Forall₂ R l m)
    (hb : b ∈ m) : ∃ a ∈ l, R a b := by
  induction h with
  | nil => cases hb
  | cons hr _ ih =>
    rcases List.mem_cons.1 hb with rfl | hb
    · exact ⟨_, List.mem_cons_self .., hr⟩
    · obtain ⟨a, ha, hab⟩ := ih hb
      exact ⟨a, List.mem_cons_of_mem _ ha, hab⟩

theorem forall₂_trans {l : List α} {m : List β} {n : List γ}
    (hT : ∀ a b c, R a b → S b c → T a c) (h : List.Forall₂ R l m) (h' : List.Forall₂ S m n) :
    List.Forall₂ T l n := by
  induction h generalizing n with
  | nil => cases h'; exact .nil
  | cons hr _ ih =>
    cases h' with
    | cons hs hrest => exact .cons (hT _ _ _ hr hs) (ih hrest)

theorem forall₂_both {l : List α} {m : List β} {R' : α → β → Prop} (h : List.Forall₂ R l m)
    (h' : List.Forall₂ R' l m) : List.Forall₂ (fun a b => R a b ∧ R' a b) l m := by
  induction h with
  | nil => exact .nil
  | cons hr _ ih =>
    cases h' with
    | cons hr' hrest' => exact .cons ⟨hr, hr'⟩ (ih hrest')

theorem exists_getElem?_right {l : List α} {m : List β} {k : Nat} {a : α}
    (h : List.Forall₂ R l m) (ha : l[k]? = some a) : ∃ b, m[k]? = some b ∧ R a b := by
  induction h generalizing k with
  | nil => simp at ha
  | cons hr _ ih =>
    cases k with
    | zero =>
      cases ha
      exact ⟨_, rfl, hr⟩
    | succ k => exact ih ha

theorem exists_getElem?_left {l : List α} {m : List β} {k : Nat} {b : β}
    (h : List.Forall₂ R l m) (hb : m[k]? = some b) : ∃ a, l[k]? = some a ∧ R a b :=
  exists_getElem?_right h.flip hb

theorem forall₂_of_getElem? {l : List α} {m : List β} (hlen : l.length = m.length)
    (h : ∀ (k : Nat) (a : α) (b : β), l[k]? = some a → m[k]? = some b → R a b) :
    List.Forall₂ R l m := by
  induction l generalizing m with
  | nil =>
    cases m with
    | nil => exact .nil
    | cons b m => simp at hlen
  | cons a l ih =>
    cases m with
    | nil => simp at hlen
    | cons b m =>
      have htail := ih (by simpa using hlen) fun k x y hx hy => h (k + 1) x y hx hy
      exact .cons (h 0 a b rfl rfl) htail

/-- Entries can be chosen one by one. -/
theorem exists_chosen {P : Nat → α → β → Prop} (l : List α)
    (h : ∀ k a, l[k]? = some a → ∃ b, P k a b) :
    ∃ m : List β, l.length = m.length ∧
      ∀ k a b, l[k]? = some a → m[k]? = some b → P k a b := by
  induction l generalizing P with
  | nil => exact ⟨[], rfl, fun k a b ha _ => by simp at ha⟩
  | cons a l ih =>
    obtain ⟨b, hb⟩ := h 0 a rfl
    obtain ⟨m, hlen, hm⟩ := ih fun k x hx => h (k + 1) x hx
    refine ⟨b :: m, by simp [hlen], fun k x y hx hy => ?_⟩
    cases k with
    | zero =>
      cases hx
      cases hy
      exact hb
    | succ k => exact hm k x y hx hy

theorem exists_append_of_forall₂ {l₁ l₂ : List α} {m : List β} (h : List.Forall₂ R (l₁ ++ l₂) m) :
    ∃ m₁ m₂, m = m₁ ++ m₂ ∧ List.Forall₂ R l₁ m₁ ∧ List.Forall₂ R l₂ m₂ := by
  induction l₁ generalizing m with
  | nil => exact ⟨[], m, rfl, .nil, h⟩
  | cons a l₁ ih =>
    cases h with
    | cons hr hrest =>
      obtain ⟨m₁, m₂, rfl, h₁, h₂⟩ := ih hrest
      exact ⟨_, m₂, rfl, .cons hr h₁, h₂⟩

theorem modify_append_length (pre post : List α) (a : α) (f : α → α) :
    (pre ++ a :: post).modify pre.length f = pre ++ f a :: post := by
  induction pre with
  | nil => rfl
  | cons b pre ih => rw [List.cons_append, List.length_cons, List.modify_succ_cons, ih]; rfl

end Tripwire
