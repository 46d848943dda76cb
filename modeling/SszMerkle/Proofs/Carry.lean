/-
The frontier is a binary counter: of a row of leaves, the stack keeps at each level where the count
has a one the root of the full subtree that ends there. A carry adds one to the counter; a carry
with padding completes the last partial subtree instead. Every visit of either is a node of the
reference tree, and between them they visit every node above a leaf that was taken.
-/
import SszMerkle.Proofs.Padded

namespace SszMerkle.Frontier

variable {h : Hasher} {leaf : Nat → Root} {pad level p : Nat} {node : Root}

/-! ## What a stack keeps and what visits show -/

/-- From `level` on, the stack keeps the left sibling of each odd ancestor of the next node `p`. -/
def Kept (h : Hasher) (leaf : Nat → Root) : (level p : Nat) → List Root → Prop
  | _, _, [] => True
  | level, p, kept :: above =>
    (p % 2 = 1 → kept = Padded.node h leaf level (p - 1)) ∧ Kept h leaf (level + 1) (p / 2) above

/-- Visits of nodes of the reference tree. -/
def Faithful (h : Hasher) (leaf : Nat → Root) (visits : List Visit) : Prop :=
  ∀ v ∈ visits, v.root = Padded.node h leaf v.level v.position

/-- Visits of levels up to `top`. -/
def Within (top : Nat) (visits : List Visit) : Prop := ∀ v ∈ visits, v.level ≤ top

/-- The node at a position of a level is among the visits. -/
def Shown (visits : List Visit) (level position : Nat) : Prop :=
  ∃ v ∈ visits, v.level = level ∧ v.position = position

@[simp] theorem faithful_nil : Faithful h leaf [] := by simp [Faithful]

@[simp] theorem faithful_cons {v : Visit} {vs : List Visit} :
    Faithful h leaf (v :: vs) ↔
      v.root = Padded.node h leaf v.level v.position ∧ Faithful h leaf vs := by
  simp [Faithful]

@[simp] theorem faithful_append {vs ws : List Visit} :
    Faithful h leaf (vs ++ ws) ↔ Faithful h leaf vs ∧ Faithful h leaf ws := by
  simp [Faithful, or_imp, forall_and]

@[simp] theorem within_nil {top : Nat} : Within top [] := by simp [Within]

@[simp] theorem within_cons {top : Nat} {v : Visit} {vs : List Visit} :
    Within top (v :: vs) ↔ v.level ≤ top ∧ Within top vs := by
  simp [Within]

@[simp] theorem within_append {top : Nat} {vs ws : List Visit} :
    Within top (vs ++ ws) ↔ Within top vs ∧ Within top ws := by
  simp [Within, or_imp, forall_and]

@[simp] theorem shown_nil {l x : Nat} : ¬ Shown [] l x := by simp [Shown]

@[simp] theorem shown_cons {v : Visit} {vs : List Visit} {l x : Nat} :
    Shown (v :: vs) l x ↔ (v.level = l ∧ v.position = x) ∨ Shown vs l x := by
  simp [Shown]

@[simp] theorem shown_append {vs ws : List Visit} {l x : Nat} :
    Shown (vs ++ ws) l x ↔ Shown vs l x ∨ Shown ws l x := by
  simp [Shown, or_and_right, exists_or]

/-- A stack slot of a one in the count. -/
theorem Kept.getElem? {stack : List Root} {j : Nat} {r : Root} (hk : Kept h leaf level p stack)
    (hr : stack[j]? = some r) (hj : p / 2 ^ j % 2 = 1) :
    r = Padded.node h leaf (level + j) (p / 2 ^ j - 1) := by
  induction stack generalizing level p j with
  | nil => simp at hr
  | cons kept above ih =>
    cases j with
    | zero =>
      simp only [pow_zero, Nat.div_one, List.getElem?_cons_zero, Option.some.injEq] at hr hj ⊢
      exact hr ▸ hk.1 hj
    | succ j =>
      have e : p / 2 ^ (j + 1) = p / 2 / 2 ^ j := by rw [Nat.div_div_eq_div_mul, pow_succ']
      rw [e] at hj ⊢
      rw [show level + (j + 1) = level + 1 + j by omega]
      exact ih hk.2 (by simpa using hr) hj

/-! ## One carry -/

/-- A carry goes up from an odd position beside the root that is kept there, from an even one below
the padded level beside a zero root, and comes to rest at any other even position. -/
theorem carry_cases {kept : Root} {above out : List Root} {visits : List Visit}
    (hc : carry h pad level p node (kept :: above) = .ok (out, visits)) :
    (p % 2 = 1 ∧ ∃ out' visits',
      carry h pad (level + 1) (p / 2) (h.combine kept node) above = .ok (out', visits') ∧
      out = kept :: out' ∧ visits = .above h (level + 1) (p / 2) kept node :: visits') ∨
    (p % 2 = 0 ∧ level < pad ∧ ∃ zero out' visits', h.zero level = .ok zero ∧
      carry h pad (level + 1) (p / 2) (h.combine node zero) above = .ok (out', visits') ∧
      out = kept :: out' ∧
      visits = .given level (p + 1) zero :: .above h (level + 1) (p / 2) node zero :: visits') ∨
    (p % 2 = 0 ∧ pad ≤ level ∧ out = node :: above ∧ visits = []) := by
  unfold carry at hc
  split at hc
  · rename_i hp
    refine .inl ⟨hp, ?_⟩
    simp only [Visit.above] at hc
    cases hr : carry h pad (level + 1) (p / 2) (h.combine kept node) above with
    | error e => rw [hr] at hc; cases hc
    | ok r => rw [hr] at hc; cases hc; exact ⟨_, _, rfl, rfl, rfl⟩
  · rename_i hp
    refine .inr ?_
    have hp0 : p % 2 = 0 := by omega
    split at hc
    · rename_i hl
      refine .inl ⟨hp0, hl, ?_⟩
      cases hz : h.zero level with
      | error e => rw [hz] at hc; cases hc
      | ok zero =>
        simp only [hz, Visit.above] at hc
        cases hr : carry h pad (level + 1) (p / 2) (h.combine node zero) above with
        | error e => simp only [bind, Except.bind, hr] at hc; cases hc
        | ok r => simp only [bind, Except.bind, hr] at hc; cases hc; exact ⟨_, _, _, rfl, hr, rfl, rfl⟩
    · rename_i hl
      cases hc
      exact .inr ⟨hp0, by omega, rfl, rfl⟩

/-- A carry succeeds while the position leaves room on the stack and the padding stays on it. -/
theorem carry_ok (h : Hasher) (hpad : pad ≤ 64) :
    ∀ (level : Nat) (node : Root) {stack : List Root} {p n : Nat},
      stack.length = n + 1 → p < 2 ^ n → pad ≤ level + n →
        ∃ out visits, carry h pad level p node stack = .ok (out, visits) ∧
          out.length = stack.length ∧ Within (level + n) visits
  | level, node, kept :: above, p, n, hlen, hp, htop => by
    -- one level up the stack is one shorter and the position half as large
    have step : ∀ node', 0 < n → ∃ out visits,
        carry h pad (level + 1) (p / 2) node' above = .ok (out, visits) ∧
          out.length = above.length ∧ Within (level + n) visits := by
      intro node' hn
      obtain ⟨m, rfl⟩ : ∃ m, n = m + 1 := ⟨n - 1, by omega⟩
      rw [pow_succ] at hp
      have := carry_ok h hpad (level + 1) node' (by simpa using hlen : above.length = m + 1)
        (by omega : p / 2 < 2 ^ m) (by omega)
      rwa [Nat.add_right_comm level 1 m] at this
    unfold carry
    split
    · have hn : 0 < n := by
        rcases Nat.eq_zero_or_pos n with rfl | hn
        · rw [pow_zero] at hp; omega
        · exact hn
      obtain ⟨out, visits, hr, hl, hw⟩ := step (h.combine kept node) hn
      simp only [Visit.above, hr]
      exact ⟨_, _, rfl, by simp [hl], within_cons.2 ⟨by show level + 1 ≤ _; omega, hw⟩⟩
    · split
      · rename_i hl
        have hz : h.zero level = .ok (zeroRoot h.combine level) := Hasher.zero_eq (by omega)
        obtain ⟨out, visits, hr, hl', hw⟩ := step (h.combine node (zeroRoot h.combine level)) (by omega)
        simp only [hz, Visit.above, Visit.given, bind, Except.bind, hr]
        refine ⟨_, _, rfl, by simp [hl'], within_cons.2 ⟨?_, within_cons.2 ⟨?_, hw⟩⟩⟩
        · show level ≤ _; omega
        · show level + 1 ≤ _; omega
      · exact ⟨_, _, rfl, by simp, within_nil⟩

/-- A carry without padding counts one more: what the stack keeps is right for the next position,
and the visits are the nodes that are complete just now. -/
theorem carry_absorbs : ∀ {stack out : List Root} {level p : Nat} {node : Root} {visits : List Visit},
    carry h 0 level p node stack = .ok (out, visits) → Kept h leaf level p stack →
      node = Padded.node h leaf level p →
      Kept h leaf level (p + 1) out ∧ Faithful h leaf visits ∧
        ∀ j x, (x + 1) * 2 ^ (j + 1) = p + 1 → Shown visits (level + (j + 1)) x
  | kept :: above, out, level, p, node, visits, hc, hk, hn => by
    rcases carry_cases hc with ⟨hp, out', visits', hr, rfl, rfl⟩ | ⟨-, hl, -⟩ | ⟨hp, -, rfl, rfl⟩
    · have up : h.combine kept node = Padded.node h leaf (level + 1) (p / 2) := by
        rw [hk.1 hp, hn, Padded.combine_odd hp]
      obtain ⟨hk', hf, hs⟩ := carry_absorbs hr hk.2 up
      have next : (p + 1) / 2 = p / 2 + 1 := by omega
      refine ⟨⟨fun odd => by omega, next ▸ hk'⟩, by simpa [Visit.above] using ⟨up, hf⟩, ?_⟩
      intro j x hx
      rw [shown_cons]
      have e : (x + 1) * 2 ^ j = p / 2 + 1 := by rw [pow_succ, ← mul_assoc] at hx; omega
      cases j with
      | zero => exact .inl ⟨rfl, by simp [Visit.above] at e ⊢; omega⟩
      | succ j =>
        right
        rw [show level + (j + 1 + 1) = level + 1 + (j + 1) by omega]
        exact hs j x e
    · omega
    · have next : (p + 1) / 2 = p / 2 := by omega
      refine ⟨⟨fun _ => by simpa using hn, next ▸ hk.2⟩, faithful_nil, ?_⟩
      -- an even position completes no node above it
      intro j x hx
      rw [pow_succ, ← mul_assoc] at hx
      omega

/-- A carry with padding leaves the root of the whole tree below the padded level there, if all
leaves right of the position are zero, and visits every node above the position. -/
theorem carry_completes : ∀ {stack out : List Root} {level p n : Nat} {node : Root}
    {visits : List Visit},
    carry h (level + n) level p node stack = .ok (out, visits) → Kept h leaf level p stack →
      node = Padded.node h leaf level p → (∀ i, (p + 1) * 2 ^ level ≤ i → leaf i = .zero) →
      level + n ≤ 64 → p < 2 ^ n →
      out[n]? = some (Padded.node h leaf (level + n) 0) ∧ Faithful h leaf visits ∧
        ∀ j, j + 1 ≤ n → Shown visits (level + (j + 1)) (p / 2 ^ (j + 1))
  | kept :: above, out, level, p, n, node, visits, hc, hk, hn, hz, h64, hp => by
    -- the nodes above the position, once the carry from the next level has shown its own
    have up : ∀ {m : Nat} {node' : Root} {out' : List Root} {visits' : List Visit}, n = m + 1 →
        carry h (level + n) (level + 1) (p / 2) node' above = .ok (out', visits') →
        node' = Padded.node h leaf (level + 1) (p / 2) →
        out'[m]? = some (Padded.node h leaf (level + n) 0) ∧ Faithful h leaf visits' ∧
          ∀ {v : Visit}, v.level = level + 1 → v.position = p / 2 →
            ∀ j, j + 1 ≤ n → Shown (v :: visits') (level + (j + 1)) (p / 2 ^ (j + 1)) := by
      rintro m node' out' visits' rfl hr hn'
      rw [show level + (m + 1) = level + 1 + m by omega] at hr ⊢
      rw [pow_succ] at hp
      obtain ⟨ht, hf, hs⟩ := carry_completes hr hk.2 hn' (fun i hi => hz i (by
        have : (p / 2 + 1) * 2 ^ (level + 1) = (2 * (p / 2) + 2) * 2 ^ level := by ring
        have : (p + 1) * 2 ^ level ≤ (2 * (p / 2) + 2) * 2 ^ level := Nat.mul_le_mul_right _ (by omega)
        omega)) (by omega) (by omega)
      refine ⟨ht, hf, fun {v} hv hx j hj => ?_⟩
      rw [shown_cons]
      cases j with
      | zero => exact .inl ⟨hv, by simpa using hx⟩
      | succ j =>
        right
        rw [show level + (j + 1 + 1) = level + 1 + (j + 1) by omega, pow_succ', ← Nat.div_div_eq_div_mul]
        exact hs j (by omega)
    rcases carry_cases hc with ⟨hodd, out', visits', hr, rfl, rfl⟩ |
      ⟨heven, hl, zero, out', visits', h0, hr, rfl, rfl⟩ | ⟨heven, hl, rfl, rfl⟩
    · have hn0 : n ≠ 0 := by rintro rfl; rw [pow_zero] at hp; omega
      obtain ⟨m, hm⟩ : ∃ m, n = m + 1 := ⟨n - 1, by omega⟩
      have e : h.combine kept node = Padded.node h leaf (level + 1) (p / 2) := by
        rw [hk.1 hodd, hn, Padded.combine_odd hodd]
      obtain ⟨ht, hf, hs⟩ := up hm hr e
      refine ⟨by rw [hm] at ht ⊢; simpa using ht, faithful_cons.2 ⟨e, hf⟩, hs rfl rfl⟩
    · obtain ⟨m, hm⟩ : ∃ m, n = m + 1 := ⟨n - 1, by omega⟩
      rw [Hasher.zero_eq (by omega), Except.ok.injEq] at h0
      have right : zero = Padded.node h leaf level (p + 1) := by
        rw [← h0, Padded.node_eq_zeroRoot hz]
      have e : h.combine node zero = Padded.node h leaf (level + 1) (p / 2) := by
        rw [hn, right, Padded.combine_even heven]
      obtain ⟨ht, hf, hs⟩ := up hm hr e
      refine ⟨by rw [hm] at ht ⊢; simpa using ht, faithful_cons.2 ⟨right, faithful_cons.2 ⟨e, hf⟩⟩, ?_⟩
      intro j hj
      exact shown_cons.2 (.inr (hs rfl rfl j hj))
    · obtain rfl : n = 0 := by omega
      obtain rfl : p = 0 := by rw [pow_zero] at hp; omega
      exact ⟨by simpa using hn, faithful_nil, fun j hj => by omega⟩

end SszMerkle.Frontier
