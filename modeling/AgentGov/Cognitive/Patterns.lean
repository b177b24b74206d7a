import AgentGov.Cognitive.Breaker
import Mathlib.Data.Finset.Card
import Mathlib.Tactic.Ring

/-!
# The loops a policy names

A loop is a pattern at the end of a trajectory's calls: one call made some number of times in a
row, or a sequence of calls of which at least two differ, made over and over. The built-in
detectors find exactly the patterns at the end of what they are handed
(`src/src/agentgov/cognitive.py`, lines 464–620).

## Main definitions

* `AgentGov.Cognitive.EndsRepeat`, `AgentGov.Cognitive.EndsCycle`: the patterns.
* `AgentGov.Cognitive.nearDuplicate`: the detector between the two, its comparison of calls given.

## Main results

* `AgentGov.Cognitive.exactRepeat_iff`, `AgentGov.Cognitive.callCycle_iff`: a detector fires
  where its pattern ends.
-/

open Foundation

namespace AgentGov.Cognitive

/-! ### Patterns -/

section

variable {α : Type*}

/-- One item `n` times in a row, at the end. -/
def EndsRepeat (n : ℤ) (l : List α) : Prop := 1 ≤ n ∧ ∃ a, List.replicate n.toNat a <:+ l

/-- At the end, `k` repetitions of a sequence of two to `m` items that are not all one. A sequence
made once repeats nothing. -/
def EndsCycle (m k : ℤ) (l : List α) : Prop :=
  2 ≤ k ∧ ∃ block : List α, 2 ≤ block.length ∧ block.length ≤ m ∧
    (∃ a ∈ block, ∃ b ∈ block, a ≠ b) ∧ (List.replicate k.toNat block).flatten <:+ l

variable {l l' : List α} {m n k : ℤ}

theorem EndsRepeat.mono (h : EndsRepeat n l) (hl : l <:+ l') : EndsRepeat n l' :=
  ⟨h.1, h.2.imp fun _ ha => ha.trans hl⟩

theorem EndsCycle.mono (h : EndsCycle m k l) (hl : l <:+ l') : EndsCycle m k l' := by
  obtain ⟨hk, block, htwo, hm, hdistinct, hsuffix⟩ := h
  exact ⟨hk, block, htwo, hm, hdistinct, hsuffix.trans hl⟩

/-- A pattern at the end of a list is at the end of any part of the end long enough for it. -/
theorem EndsRepeat.of_suffix (h : EndsRepeat n l') (hl : l <:+ l')
    (hlen : min n l'.length ≤ l.length) : EndsRepeat n l := by
  obtain ⟨hpos, a, ha⟩ := h
  refine ⟨hpos, a, List.suffix_of_suffix_length_le ha hl ?_⟩
  have := ha.length_le
  rw [List.length_replicate] at this ⊢
  omega

theorem length_flatten_replicate (k : ℕ) (block : List α) :
    (List.replicate k block).flatten.length = k * block.length := by
  simp

theorem EndsCycle.of_suffix (h : EndsCycle m k l') (hl : l <:+ l')
    (hlen : min (m * k) l'.length ≤ l.length) : EndsCycle m k l := by
  obtain ⟨hk, block, htwo, hm, hdistinct, hsuffix⟩ := h
  refine ⟨hk, block, htwo, hm, hdistinct, List.suffix_of_suffix_length_le hsuffix hl ?_⟩
  have hless : (block.length : ℤ) * k ≤ m * k := mul_le_mul_of_nonneg_right hm (by omega)
  have hcast : ((block.length * k.toNat : ℕ) : ℤ) = block.length * k := by
    rw [Nat.cast_mul, Int.toNat_of_nonneg (by omega)]
  have := hsuffix.length_le
  rw [length_flatten_replicate, mul_comm] at this ⊢
  omega

/-! ### What the detectors compute of them -/

/-- A run of one item at the end is a run of it at the start, read backwards. -/
theorem replicate_prefix_iff [DecidableEq α] {a : α} {j : ℕ} :
    List.replicate j a <+: l ↔ j ≤ (l.takeWhile (· = a)).length := by
  induction l generalizing j with
  | nil => cases j <;> simp
  | cons b l ih =>
    cases j with
    | zero => simp
    | succ j =>
      rw [List.replicate_succ, List.cons_prefix_cons, ih]
      by_cases hab : a = b
      · subst hab
        simp
      · simp [hab, Ne.symm hab]

theorem replicate_suffix_iff [DecidableEq α] {a : α} {j : ℕ} :
    List.replicate j a <:+ l ↔ j ≤ (l.reverse.takeWhile (· = a)).length := by
  rw [← List.reverse_prefix, List.reverse_replicate, replicate_prefix_iff]

theorem endsRepeat_concat [DecidableEq α] {a : α} :
    EndsRepeat n (l ++ [a]) ↔
      1 ≤ n ∧ n ≤ 1 + ((l.reverse.takeWhile (· = a)).length : ℤ) := by
  refine and_congr_right fun hpos => ⟨?_, fun h => ⟨a, ?_⟩⟩
  · rintro ⟨b, hb⟩
    obtain ⟨j, hj⟩ : ∃ j, n.toNat = j + 1 := ⟨n.toNat - 1, by omega⟩
    rw [hj, List.replicate_succ', List.suffix_concat_iff] at hb
    rcases hb with hb | ⟨t, ht, hsuffix⟩
    · simp at hb
    · obtain ⟨rfl, hba⟩ := List.append_inj' ht rfl
      obtain rfl : b = a := by simpa using hba
      have := replicate_suffix_iff.mp hsuffix
      omega
  · obtain ⟨j, hj⟩ : ∃ j, n.toNat = j + 1 := ⟨n.toNat - 1, by omega⟩
    rw [hj, List.replicate_succ', List.suffix_concat_iff]
    exact Or.inr ⟨_, rfl, replicate_suffix_iff.mpr (by omega)⟩

/-- An item of a repeated sequence. -/
theorem getElem?_flatten_replicate (block : List α) (k i : ℕ) :
    (List.replicate k block).flatten[i]? =
      if i < k * block.length then block[i % block.length]? else none := by
  induction k generalizing i with
  | zero => simp
  | succ k ih =>
    rw [List.replicate_succ, List.flatten_cons, add_mul, one_mul]
    rcases Nat.lt_or_ge i block.length with hlt | hge
    · rw [List.getElem?_append_left hlt, if_pos (by omega), Nat.mod_eq_of_lt hlt]
    · rw [List.getElem?_append_right hge, ih, Nat.mod_eq_sub_mod hge]
      by_cases h : i - block.length < k * block.length
      · rw [if_pos h, if_pos (by omega)]
      · rw [if_neg h, if_neg (by omega)]

theorem two_le_length_dedup [DecidableEq α] :
    2 ≤ l.dedup.length ↔ ∃ a ∈ l, ∃ b ∈ l, a ≠ b := by
  rw [← List.card_toFinset, Nat.succ_le_iff, Finset.one_lt_card]
  simp

end

/-! ### The detectors -/

/-- The pairs of consecutive calls, the newest first. -/
def consecutive (calls : List ToolCall) : List (ToolCall × ToolCall) :=
  calls.reverse.zip calls.reverse.tail

/-- `NearDuplicateDetector`: trips on a run of pairs that barely differ. The comparison, by
floating point, is given: whether a pair is similar enough and its results agree, and what the
reason and the evidence say of the pairs. -/
def nearDuplicate (maxStreak : ℤ) (stagnant : ToolCall → ToolCall → Bool)
    (describe : List (ToolCall × ToolCall) → Text × List (Text × Text)) : Detector :=
  fun call history =>
    if maxStreak < 1 ∨ history = [] then .ok none
    else
      let pairs := (consecutive (history ++ [call])).takeWhile fun p => stagnant p.1 p.2
      if pairs.length < maxStreak then .ok none
      else
        .ok (some {
          detector := txt "near_duplicate"
          reason := (describe (pairs.take maxStreak.toNat)).1
          observations := history.length + 1
          tier := .deterministic
          evidence := (describe (pairs.take maxStreak.toNat)).2 })

variable {repr : Text → Text} {call : ToolCall} {history : List ToolCall} {m n k : ℤ}

/-- The fingerprints of the calls a detector is handed. -/
def seen (call : ToolCall) (history : List ToolCall) : List Text :=
  history.map ToolCall.fingerprint ++ [call.fingerprint]

/-- The exact-repeat detector fires where its pattern ends. -/
theorem exactRepeat_iff : (∃ v, exactRepeat repr n call history = .ok (some v)) ↔
    EndsRepeat n (seen call history) := by
  have hlen : ((history.map ToolCall.fingerprint).reverse.takeWhile
      (· = call.fingerprint)).length = (history.reverse.takeWhile fun previous =>
        previous.fingerprint = call.fingerprint).length := by
    rw [← List.map_reverse, List.takeWhile_map, List.length_map]
    rfl
  rw [seen, endsRepeat_concat, hlen]
  simp only [exactRepeat]
  split_ifs with hn hrun
  · simp
    omega
  · simp
    omega
  · simp
    omega

theorem detector_exactRepeat {v : Verdict} (h : exactRepeat repr n call history = .ok (some v)) :
    v.detector = txt "exact_repeat" := by
  simp only [exactRepeat] at h
  split_ifs at h
  · simp at h
  · simp at h
  · rw [← Option.some.inj (Except.ok.inj h)]

/-- Items that repeat with a period are repetitions of the first of them. -/
theorem flatten_replicate_take {α : Type*} {tail : List α} {k p : ℕ} (hpos : 0 < p) (hk : 0 < k)
    (hlen : tail.length = p * k) (h : ∀ i < p * k, tail[i]? = tail[i % p]?) :
    (List.replicate k (tail.take p)).flatten = tail := by
  have hblock : (tail.take p).length = p := by
    rw [List.length_take, hlen, Nat.min_eq_left (Nat.le_mul_of_pos_right p hk)]
  refine List.ext_getElem? fun i => ?_
  rw [getElem?_flatten_replicate, hblock]
  split_ifs with hi
  · rw [List.getElem?_take_of_lt (Nat.mod_lt i hpos), h i (by rwa [mul_comm])]
  · rw [List.getElem?_eq_none (by rw [hlen, mul_comm]; omega)]

theorem mem_flatten_replicate {α : Type*} {block : List α} {k : ℕ} (hk : 0 < k) {a : α} :
    a ∈ (List.replicate k block).flatten ↔ a ∈ block := by
  simp [hk.ne']

/-- What the cycle detector finds at a period is the pattern of that period. -/
theorem cycleAt_isSome {k p observations : ℕ} {fs : List Text} (hk : 0 < k) :
    (cycleAt k fs observations p).isSome ↔ ∃ block : List Text, block.length = p ∧
      (∃ a ∈ block, ∃ b ∈ block, a ≠ b) ∧ (List.replicate k block).flatten <:+ fs := by
  constructor
  · intro h
    simp only [cycleAt] at h
    split_ifs at h with hlen hcycle
    · simp at h
    · obtain ⟨hall, hdistinct⟩ := hcycle
      set tail := fs.drop (fs.length - p * k) with htail
      have htailLen : tail.length = p * k := by
        rw [htail, List.length_drop]
        omega
      rw [two_le_length_dedup] at hdistinct
      have hpos : 0 < p := by
        obtain ⟨a, ha, -⟩ := hdistinct
        have := List.length_pos_of_mem ha
        exact Nat.pos_of_mul_pos_right (htailLen ▸ this)
      have hwhole := flatten_replicate_take hpos hk htailLen fun i hi => by
        simpa using List.all_eq_true.mp hall i (List.mem_range.mpr hi)
      refine ⟨tail.take p, ?_, ?_, ?_⟩
      · rw [List.length_take, htailLen, Nat.min_eq_left (Nat.le_mul_of_pos_right p hk)]
      · rw [← hwhole] at hdistinct
        simpa only [mem_flatten_replicate hk] using hdistinct
      · rw [hwhole]
        exact List.drop_suffix _ _
    · simp at h
  · rintro ⟨block, rfl, hdistinct, hsuffix⟩
    have hlen := hsuffix.length_le
    rw [length_flatten_replicate, mul_comm] at hlen
    have htail := List.suffix_iff_eq_drop.mp hsuffix
    rw [length_flatten_replicate, mul_comm] at htail
    have hpos : 0 < block.length := by
      obtain ⟨a, ha, -⟩ := hdistinct
      exact List.length_pos_of_mem ha
    have hmod : ∀ i < block.length * k, (List.replicate k block).flatten[i]? =
        (List.replicate k block).flatten[i % block.length]? := by
      intro i hi
      rw [mul_comm] at hi
      have hless := Nat.mod_lt i hpos
      rw [getElem?_flatten_replicate, getElem?_flatten_replicate, if_pos hi,
        if_pos (hless.trans_le (Nat.le_mul_of_pos_left _ hk)), Nat.mod_mod]
    simp only [cycleAt]
    rw [if_neg (by omega), ← htail, if_pos]
    · rfl
    · refine ⟨List.all_eq_true.mpr fun i hi => ?_, ?_⟩
      · simpa using hmod i (List.mem_range.mp hi)
      · rw [two_le_length_dedup]
        simpa only [mem_flatten_replicate hk] using hdistinct

/-- The cycle detector fires where its pattern ends. -/
theorem callCycle_iff : (∃ v, callCycle m k call history = .ok (some v)) ↔
    EndsCycle m k (seen call history) := by
  by_cases hoff : m < 2 ∨ k < 2
  · constructor
    · rintro ⟨v, h⟩
      rw [callCycle, if_pos hoff] at h
      cases h
    · rintro ⟨hk, block, htwo, hm, -⟩
      omega
  · have hk : 0 < k.toNat := by omega
    have hsome : (∃ v, callCycle m k call history = .ok (some v)) ↔
        (((List.range (m - 1).toNat).map (· + 2)).findSome?
          (cycleAt k.toNat (seen call history) (history.length + 1))).isSome := by
      rw [callCycle, if_neg hoff]
      simp [seen, Option.isSome_iff_exists]
    rw [hsome, List.isSome_findSome?, List.any_eq_true]
    constructor
    · rintro ⟨p, hp, hfound⟩
      obtain ⟨j, hj, rfl⟩ := List.mem_map.mp hp
      obtain ⟨block, hlen, hdistinct, hsuffix⟩ := (cycleAt_isSome hk).mp hfound
      rw [List.mem_range] at hj
      exact ⟨by omega, block, by omega, by omega, hdistinct, hsuffix⟩
    · rintro ⟨-, block, htwo, hm, hdistinct, hsuffix⟩
      refine ⟨block.length, List.mem_map.mpr ⟨block.length - 2, ?_, by omega⟩,
        (cycleAt_isSome hk).mpr ⟨block, rfl, hdistinct, hsuffix⟩⟩
      rw [List.mem_range]
      omega

theorem detector_callCycle {v : Verdict} (h : callCycle m k call history = .ok (some v)) :
    v.detector = txt "call_cycle" := by
  simp only [callCycle] at h
  split_ifs at h
  · simp at h
  · obtain ⟨p, -, hp⟩ := List.exists_of_findSome?_eq_some (Except.ok.inj h)
    simp only [cycleAt] at hp
    split_ifs at hp
    rw [← Option.some.inj hp]

theorem detector_nearDuplicate {maxStreak : ℤ} {stagnant : ToolCall → ToolCall → Bool}
    {describe : List (ToolCall × ToolCall) → Text × List (Text × Text)} {v : Verdict}
    (h : nearDuplicate maxStreak stagnant describe call history = .ok (some v)) :
    v.detector = txt "near_duplicate" := by
  simp only [nearDuplicate] at h
  split_ifs at h
  · simp at h
  · simp at h
  · rw [← Option.some.inj (Except.ok.inj h)]

end AgentGov.Cognitive
