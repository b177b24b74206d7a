import AgentGov.Foundation.OrderedDict

/-!
# The last write of a key

Writes that may be refused, gathered in a mapping that keeps the last one of each key, come to the
same as all of them one after the other, where writes of different keys do not meet and the last
write of a key takes in the one before it.

## Main results

* `Foundation.Dict.foldlM_values_set`: one more write.
* `Foundation.Dict.foldlM_values_setAll`: writes after those of a mapping.
-/

namespace Foundation

namespace Dict

universe u v

variable {κ : Type u} {α : Type v} {σ : Type} {f : σ → α → Option σ} {key : α → κ}

/-- A write passes those of other keys. -/
theorem foldlM_comm (hcomm : ∀ s a b, key a ≠ key b → f s a >>= (f · b) = f s b >>= (f · a))
    {l : List α} {a : α} (hl : ∀ b ∈ l, key b ≠ key a) (s : σ) :
    l.foldlM f s >>= (f · a) = f s a >>= l.foldlM f := by
  induction l generalizing s with
  | nil => simp
  | cons b l ih =>
    have hrest := ih fun c hc => hl c (List.mem_cons_of_mem b hc)
    calc (b :: l).foldlM f s >>= (f · a)
        = f s b >>= fun t => l.foldlM f t >>= (f · a) := by rw [List.foldlM_cons, bind_assoc]
      _ = f s b >>= fun t => f t a >>= l.foldlM f := by simp only [hrest]
      _ = f s a >>= fun t => f t b >>= l.foldlM f := by
        rw [← bind_assoc, hcomm s b a (hl b List.mem_cons_self), bind_assoc]
      _ = f s a >>= (b :: l).foldlM f := by simp only [List.foldlM_cons]

variable [DecidableEq κ]

/-- Values that hold their keys hold each of them once. -/
theorem nodup_values_map {d : Dict κ α} (hkeyed : ∀ k a, d.get? k = some a → key a = k) :
    (d.values.map key).Nodup := by
  have hkeys : d.values.map key = d.keys := by
    rw [values, keys, List.map_map]
    exact List.map_congr_left fun p hp => hkeyed p.1 p.2 (get?_eq_some_iff.mpr hp)
  rw [hkeys]
  exact d.nodup_keys

/-- Values set one after the other go on holding their keys. -/
theorem keyed_setAll {d : Dict κ α} (hkeyed : ∀ k a, d.get? k = some a → key a = k) (l : List α) :
    ∀ k a, (l.foldl (fun d a => d.set (key a) a) d).get? k = some a → key a = k := by
  induction l generalizing d with
  | nil => exact hkeyed
  | cons b l ih =>
    refine ih fun k a ha => ?_
    rw [get?_set] at ha
    split_ifs at ha with hk
    · rw [← Option.some.inj ha, hk]
    · exact hkeyed k a ha

/-- A mapping whose values hold their keys, with one more write that takes in the one before. -/
theorem foldlM_values_set
    (hcomm : ∀ s a b, key a ≠ key b → f s a >>= (f · b) = f s b >>= (f · a))
    {d : Dict κ α} (hkeyed : ∀ k b, d.get? k = some b → key b = k) {a : α}
    (habsorb : ∀ b, d.get? (key a) = some b → ∀ s, f s b >>= (f · a) = f s a) (s : σ) :
    (d.set (key a) a).values.foldlM f s = d.values.foldlM f s >>= (f · a) := by
  have hmem : ∀ p ∈ d.items, d.get? p.1 = some p.2 := fun p hp => get?_eq_some_iff.mpr hp
  have hlist : ∀ (l : List (κ × α)), (l.map Prod.fst).Nodup → (∀ p ∈ l, p ∈ d.items) → ∀ s,
      ((assocSet (key a) a l).map Prod.snd).foldlM f s =
        (l.map Prod.snd).foldlM f s >>= (f · a) := by
    intro l
    induction l with
    | nil => intro _ _ s; simp [assocSet]
    | cons p l ih =>
      intro hnodup hsub s
      rw [List.map_cons, List.nodup_cons] at hnodup
      have hp := hmem p (hsub p List.mem_cons_self)
      by_cases hk : p.1 = key a
      · have hother : ∀ b ∈ l.map Prod.snd, key b ≠ key a := by
          intro b hb heq
          obtain ⟨q, hq, rfl⟩ := List.mem_map.mp hb
          have hqk := hkeyed q.1 q.2 (hmem q (hsub q (List.mem_cons_of_mem p hq)))
          refine hnodup.1 (List.mem_map.mpr ⟨q, hq, ?_⟩)
          rw [hk, ← heq, hqk]
        rw [assocSet, if_pos hk, List.map_cons, List.map_cons, List.foldlM_cons, List.foldlM_cons,
          bind_assoc]
        simp only [foldlM_comm hcomm hother]
        rw [← bind_assoc, habsorb p.2 (hk ▸ hp)]
      · rw [assocSet, if_neg hk, List.map_cons, List.map_cons, List.foldlM_cons, List.foldlM_cons,
          bind_assoc]
        simp only [ih hnodup.2 fun q hq => hsub q (List.mem_cons_of_mem p hq)]
  exact hlist d.items d.nodup (fun p hp => hp) s

/-- Writes gathered in a mapping come to the same as one after the other, where each takes in the
one before of its key. -/
theorem foldlM_values_setAll (Alike : α → α → Prop)
    (hcomm : ∀ s a b, key a ≠ key b → f s a >>= (f · b) = f s b >>= (f · a))
    (habsorb : ∀ a b, key b = key a → Alike b a → ∀ s, f s b >>= (f · a) = f s a)
    {d : Dict κ α} {l : List α} (hkeyed : ∀ k b, d.get? k = some b → key b = k)
    (halike : ∀ a ∈ l, ∀ b, (b ∈ d.values ∨ b ∈ l) → key b = key a → Alike b a) (s : σ) :
    (l.foldl (fun d a => d.set (key a) a) d).values.foldlM f s =
      d.values.foldlM f s >>= l.foldlM f := by
  induction l generalizing d with
  | nil => simp
  | cons a l ih =>
    have hone := foldlM_values_set hcomm hkeyed (a := a) (fun b hb =>
      habsorb a b (hkeyed _ b hb) (halike a List.mem_cons_self b
        (Or.inl (mem_values_iff.mpr ⟨_, hb⟩)) (hkeyed _ b hb))) s
    have hkeyed' : ∀ k b, (d.set (key a) a).get? k = some b → key b = k := by
      intro k b hb
      rw [get?_set] at hb
      split_ifs at hb with hk
      · rw [← Option.some.inj hb, hk]
      · exact hkeyed k b hb
    have halike' : ∀ c ∈ l, ∀ b, (b ∈ (d.set (key a) a).values ∨ b ∈ l) → key b = key c →
        Alike b c := by
      intro c hc b hb
      refine halike c (List.mem_cons_of_mem a hc) b ?_
      rcases hb with hb | hb
      · obtain ⟨k, hk⟩ := mem_values_iff.mp hb
        rw [get?_set] at hk
        split_ifs at hk with heq
        · exact Or.inr (Option.some.inj hk ▸ List.mem_cons_self)
        · exact Or.inl (mem_values_iff.mpr ⟨k, hk⟩)
      · exact Or.inr (List.mem_cons_of_mem a hb)
    rw [List.foldl_cons, ih hkeyed' halike', hone, bind_assoc]
    simp only [List.foldlM_cons]

end Dict

end Foundation
