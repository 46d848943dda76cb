/-
What a pass shows of its tree, and what it keeps. Every visit of a pass over a row of leaves is of a node
that the tree of the limit's depth has, and shows the reference root there; every node above a leaf that
was taken is visited. Before the pass is sealed, the stack keeps for each one in the number of leaves the
root of a full subtree, whose leaves end where those for the lower ones begin.
-/
import SszMerkle.Proofs.Frontier
import SszMerkle.Proofs.Row

namespace SszMerkle

namespace Padded

variable {h : Hasher}

/-- The root at a node is that of the tree over the leaves below it. -/
theorem node_row (rs : List Root) (l x : Nat) :
    node h (row rs) l x = root h l (row ((rs.drop (x * 2 ^ l)).take (2 ^ l))) := by
  rw [node_shift]
  refine node_congr fun i _ hi => ?_
  rw [Nat.zero_add, one_mul] at hi
  unfold row
  simp [List.getD_eq_getElem?_getD, hi]

end Padded

namespace Frontier

variable {h : Hasher} {pad : Nat} {f : Frontier}

/-! ## Where visits lie -/

/-- Visits of nodes that a tree of a depth has. -/
def Inside (depth : Nat) (visits : List Visit) : Prop :=
  ∀ v ∈ visits, v.level ≤ depth ∧ v.position < 2 ^ (depth - v.level)

@[simp] theorem inside_nil {depth : Nat} : Inside depth [] := by simp [Inside]

@[simp] theorem inside_cons {depth : Nat} {v : Visit} {vs : List Visit} : Inside depth (v :: vs) ↔
    (v.level ≤ depth ∧ v.position < 2 ^ (depth - v.level)) ∧ Inside depth vs := by
  simp [Inside]

@[simp] theorem inside_append {depth : Nat} {vs ws : List Visit} :
    Inside depth (vs ++ ws) ↔ Inside depth vs ∧ Inside depth ws :=
  List.forall_mem_append

/-- A carry from a position of a level stays above that level's part of the tree. -/
theorem carry_inside : ∀ {stack out : List Root} {level p n : Nat} {node : Root} {visits : List Visit},
    carry h pad level p node stack = .ok (out, visits) → p < 2 ^ n → pad ≤ level + n →
      Inside (level + n) visits
  | kept :: above, out, level, p, n, node, visits, hc, hp, hpad => by
    -- one level up there is one level less above, and half as many positions
    have up : ∀ {a b node' : Root} {out' : List Root} {visits' : List Visit}, 0 < n →
        carry h pad (level + 1) (p / 2) node' above = .ok (out', visits') →
        Inside (level + n) (.above h (level + 1) (p / 2) a b :: visits') := by
      intro a b node' out' visits' hn hr
      obtain ⟨m, rfl⟩ : ∃ m, n = m + 1 := ⟨n - 1, by omega⟩
      rw [pow_succ] at hp
      have half : p / 2 < 2 ^ m := by omega
      rw [show level + (m + 1) = level + 1 + m by omega] at hpad ⊢
      refine inside_cons.2 ⟨⟨Nat.le_add_right .., ?_⟩, carry_inside hr half hpad⟩
      show p / 2 < 2 ^ (level + 1 + m - (level + 1))
      rwa [Nat.add_sub_cancel_left]
    rcases carry_cases hc with ⟨hodd, out', visits', hr, -, rfl⟩ |
      ⟨heven, hl, zero, out', visits', -, hr, -, rfl⟩ | ⟨-, -, -, rfl⟩
    · have hn : n ≠ 0 := by rintro rfl; rw [pow_zero] at hp; omega
      exact up (Nat.pos_of_ne_zero hn) hr
    · have hn : 0 < n := by omega
      refine inside_cons.2 ⟨⟨Nat.le_add_right .., ?_⟩, up hn hr⟩
      -- an even position is not the last of its level
      show p + 1 < 2 ^ (level + n - level)
      rw [Nat.add_sub_cancel_left]
      obtain ⟨m, rfl⟩ : ∃ m, n = m + 1 := ⟨n - 1, by omega⟩
      rw [pow_succ] at hp ⊢
      omega
    · exact inside_nil

theorem rise_inside : ∀ {levels level : Nat} {top root : Root} {visits : List Visit},
    rise h level levels top = .ok (root, visits) → Inside (level + levels) visits
  | 0, level, top, root, visits, hr => by
    cases hr
    exact inside_nil
  | levels + 1, level, top, root, visits, hr => by
    unfold rise at hr
    obtain ⟨zero, -, hr⟩ := bind_eq_ok hr
    obtain ⟨⟨root', above⟩, hrise, e⟩ := bind_eq_ok hr
    cases e
    have rest := rise_inside hrise
    rw [show level + 1 + levels = level + (levels + 1) by omega] at rest
    refine inside_cons.2 ⟨⟨Nat.le_add_right .., ?_⟩, inside_cons.2 ⟨⟨?_, ?_⟩, rest⟩⟩
    · show 1 < 2 ^ (level + (levels + 1) - level)
      rw [Nat.add_sub_cancel_left]
      exact Nat.one_lt_two_pow levels.succ_ne_zero
    · show level + 1 ≤ level + (levels + 1)
      omega
    · show 0 < 2 ^ _
      positivity

theorem absorb_inside (room : f.count < f.limit) {f' : Frontier} {r : Root} {visits : List Visit}
    (ha : f.absorb r = .ok (f', visits)) : Inside f.limitDepth visits := by
  have below : f.count < 2 ^ f.limitDepth := lt_of_lt_of_le room (Word.le_two_pow_depthFor f.limit)
  unfold absorb at ha
  obtain ⟨⟨stack, carried⟩, hc, ha⟩ := bind_eq_ok ha
  obtain ⟨count, -, ha⟩ := bind_eq_ok ha
  cases ha
  have inside := carry_inside hc below (Nat.zero_le _)
  rw [Nat.zero_add] at inside
  exact inside_cons.2 ⟨⟨Nat.zero_le _, below⟩, inside⟩

section Ready

variable (hf : f.Ready)
include hf

theorem complete_inside {stack : List Root} {visits : List Visit}
    (hc : f.complete = .ok (stack, visits)) : Inside f.limitDepth visits := by
  have hd : Word.depthFor f.count ≤ f.limitDepth := Word.depthFor_mono hf.le
  unfold complete at hc
  split at hc
  · cases hc
    exact inside_nil
  · rename_i hp
    obtain ⟨zero, -, hc⟩ := bind_eq_ok hc
    obtain ⟨⟨stack', carried⟩, hcarry, e⟩ := bind_eq_ok hc
    cases e
    have below : f.count < 2 ^ f.limitDepth := lt_of_lt_of_le
      (Word.lt_two_pow_depthFor (Bool.eq_false_iff.2 hp)) (Nat.pow_le_pow_right (by norm_num) hd)
    have inside := carry_inside hcarry below (by omega)
    rw [Nat.zero_add] at inside
    exact inside_cons.2 ⟨⟨Nat.zero_le _, below⟩, inside⟩

theorem finish_inside {root : Root} {visits : List Visit} (hm : f.finish = .ok (root, visits)) :
    Inside f.limitDepth visits := by
  have hd : Word.depthFor f.count ≤ f.limitDepth := Word.depthFor_mono hf.le
  unfold finish at hm
  obtain ⟨⟨stack, completed⟩, hc, hm⟩ := bind_eq_ok hm
  dsimp only at hm
  split at hm
  · cases hm
  · obtain ⟨⟨root', risen⟩, hr, e⟩ := bind_eq_ok hm
    cases e
    have inside := rise_inside hr
    rw [Nat.add_sub_cancel' hd] at inside
    exact inside_append.2 ⟨complete_inside hf hc, inside⟩

end Ready

theorem absorbAll_inside : ∀ {rs : List Root} {f f' : Frontier} {visits : List Visit}, f.Ready →
    f.count + rs.length ≤ f.limit → absorbAll rs f = .ok (f', visits) → Inside f.limitDepth visits
  | [], f, f', visits, _, _, ha => by
    cases ha
    exact inside_nil
  | r :: rs, f, f', visits, hf, room, ha => by
    rw [List.length_cons] at room
    have below : f.count < f.limit := by omega
    obtain ⟨stack, now, hr, hf', -⟩ := absorb_ok hf below r
    unfold absorbAll at ha
    obtain ⟨taken, hr', ha⟩ := bind_eq_ok ha
    rw [hr] at hr'
    cases hr'
    obtain ⟨⟨f'', later⟩, hrest, e⟩ := bind_eq_ok ha
    cases e
    have room' : f.count + 1 + rs.length ≤ f.limit := by omega
    have rest := absorbAll_inside hf' room' hrest
    exact inside_append.2 ⟨absorb_inside below hr, rest⟩

/-! ## What the stack keeps -/

section Stack

variable {rs : List Root} {l : Nat}

/-- A one in a number stands for that many, which end where what the lower ones stand for begins. -/
theorem div_two_pow_of_testBit {n : Nat} (hb : n.testBit l = true) :
    n / 2 ^ l % 2 = 1 ∧ n = (n / 2 ^ l - 1) * 2 ^ l + 2 ^ l + n % 2 ^ l := by
  have odd : n / 2 ^ l % 2 = 1 := by
    rwa [Nat.testBit_eq_decide_div_mod_eq, decide_eq_true_eq] at hb
  have parts := Nat.div_add_mod n (2 ^ l)
  refine ⟨odd, ?_⟩
  generalize n / 2 ^ l = q at odd parts ⊢
  obtain ⟨m, rfl⟩ : ∃ m, q = m + 1 := ⟨q - 1, by omega⟩
  rw [Nat.add_sub_cancel, ← Nat.succ_mul, Nat.mul_comm, parts]

/-- Of a row that has been taken, the stack keeps for each one in its length the root of a full subtree.
As many leaves come after it as the lower ones stand for. -/
theorem Kept.peak {stack : List Root} (hk : Kept h (Padded.row rs) 0 rs.length stack)
    (hl : l < stack.length) (hb : rs.length.testBit l = true) :
    ∃ before full after, rs = before ++ full ++ after ∧ full.length = 2 ^ l ∧
      after.length = rs.length % 2 ^ l ∧ stack[l]? = some (Padded.root h l (Padded.row full)) := by
  obtain ⟨odd, parts⟩ := div_two_pow_of_testBit hb
  generalize hs : (rs.length / 2 ^ l - 1) * 2 ^ l = start at parts
  have slot : stack[l]? = some stack[l] := List.getElem?_eq_getElem hl
  refine ⟨rs.take start, (rs.drop start).take (2 ^ l), (rs.drop start).drop (2 ^ l), ?_, ?_, ?_, ?_⟩
  · rw [List.append_assoc, List.take_append_drop, List.take_append_drop]
  · rw [List.length_take, List.length_drop]
    omega
  · rw [List.length_drop, List.length_drop]
    omega
  · rw [slot, hk.getElem? slot odd, Nat.zero_add, Padded.node_row, hs]

end Stack

/-! ## A pass -/

/-- What is known of the frontier that has taken a row of leaves within a limit, and of all visits until
it is sealed. -/
structure Passed (h : Hasher) (limit : Nat) (rs : List Root) (f : Frontier) (visits : List Visit) :
    Prop where
  /-- The tree has the node of each visit, and the root that is shown is the one there. -/
  settled : ∀ v ∈ visits, v.level ≤ Word.depthFor limit ∧
    v.position < 2 ^ (Word.depthFor limit - v.level) ∧
    v.root = Padded.node h (Padded.row rs) v.level v.position
  /-- Every node above a leaf of the row is visited, the leaf itself among them. -/
  covered : ∀ i < rs.length, ∀ l ≤ Word.depthFor limit,
    ∃ v ∈ visits, v.level = l ∧ v.position = i / 2 ^ l
  /-- For each one in the number of leaves the stack keeps the root of a full subtree, which ends where the
  leaves for the lower ones begin. -/
  peaks : ∀ l, rs.length.testBit l = true →
    ∃ before full after, rs = before ++ full ++ after ∧ full.length = 2 ^ l ∧
      after.length = rs.length % 2 ^ l ∧ f.stack[l]? = some (Padded.root h l (Padded.row full))
  /-- Where the leaves fill a tree, its root is kept at the level of its depth. -/
  filled : Word.isPowerOfTwo rs.length = true → f.stack[Word.depthFor rs.length]? =
    some (Padded.root h (Word.depthFor rs.length) (Padded.row rs))

/-- A pass over a row of leaves visits nodes of the reference tree of the limit's depth and shows their
roots, and every node above a leaf of the row is among them. When the last leaf has been taken, the stack
keeps for each one in the number of leaves the root of the full subtree that ends where the leaves for the
lower ones begin; so if the leaves fill a tree, it keeps the root of that. -/
theorem pass_visits_and_peaks (h : Hasher) {limit : Nat} (hl : limit < Word.bound) {rs : List Root}
    (hrs : rs.length ≤ limit) : ∃ f visits more,
      absorbAll rs (start h limit) = .ok (f, visits) ∧
      f.finish = .ok (Padded.root h (Word.depthFor limit) (Padded.row rs), more) ∧
      Passed h limit rs f (visits ++ more) := by
  have room : (start h limit).count + rs.length ≤ (start h limit).limit := by simpa [start] using hrs
  have ready := start_ready h hl
  obtain ⟨f, visits, more, ha, hm, -, faithful, shown⟩ := pass_ok h hl hrs
  have leaves : ∀ i (hi : i < rs.length), Padded.row rs ((start h limit).count + i) = rs[i] := by
    intro i hi
    simp [start, Padded.row, hi]
  obtain ⟨stack, visits', ha', hf, hk, -⟩ :=
    absorbAll_ok ready room (kept_start h (Padded.row rs) _ 0) leaves
  rw [ha] at ha'
  cases ha'
  have count : (start h limit).count + rs.length = rs.length := Nat.zero_add _
  rw [count] at hf hk hm ha
  have inside := inside_append.2 ⟨absorbAll_inside ready room ha, finish_inside hf hm⟩
  have depth : Word.depthFor rs.length ≤ Word.depthFor limit := Word.depthFor_mono hrs
  have spans : stack.length = Word.depthFor limit + 1 := hf.length
  refine ⟨_, visits, more, ha, hm, fun v hv => ?_, fun i hi l hle => ?_, fun l hb => ?_, fun hp => ?_⟩
  · obtain ⟨level, position⟩ := inside v hv
    exact ⟨level, position, faithful v hv⟩
  · exact shown l (i / 2 ^ l) hle (lt_of_le_of_lt (Nat.div_mul_le_self ..) hi)
  · have level : l ≤ Word.depthFor limit := by
      have := (Nat.ge_two_pow_of_testBit hb).trans (Word.le_two_pow_depthFor rs.length)
      exact ((Nat.pow_le_pow_iff_right (by norm_num)).1 this).trans depth
    exact hk.peak (by omega) hb
  · exact (completed_of_isPowerOfTwo hf hk hp).top

/-- Three leaves under the greatest limit: the stack keeps the pair of the first two and the third, and the
pass shows the root of the whole tree, sixty-four levels up. -/
theorem pass_of_three_at_greatest_limit :
    2 ^ 64 - 1 < Word.bound ∧ 3 ≤ 2 ^ 64 - 1 ∧ ∃ f visits,
      f.stack[0]? = some (.ofBytes [3]) ∧
      f.stack[1]? = some (Hasher.sha256.combine (.ofBytes [1]) (.ofBytes [2])) ∧
      Passed .sha256 (2 ^ 64 - 1) [.ofBytes [1], .ofBytes [2], .ofBytes [3]] f visits ∧
      ∃ v ∈ visits, v.level = 64 ∧ v.position = 0 := by
  have below : 2 ^ 64 - 1 < Word.bound := by decide
  have room : [Root.ofBytes [1], .ofBytes [2], .ofBytes [3]].length ≤ 2 ^ 64 - 1 := by simp
  obtain ⟨f, visits, more, -, -, passed⟩ := pass_visits_and_peaks .sha256 below room
  refine ⟨below, room, f, visits ++ more, ?_, ?_, passed, passed.covered 2 (by simp) 64 (by decide)⟩
  · obtain ⟨before, full, after, e, width, rest, top⟩ := passed.peaks 0 (by decide)
    obtain ⟨e, -⟩ :=
      List.append_inj' (e.symm : _ = [.ofBytes [1], .ofBytes [2], .ofBytes [3]] ++ []) rest
    obtain ⟨-, rfl⟩ := List.append_inj' (e : _ = [.ofBytes [1], .ofBytes [2]] ++ [.ofBytes [3]]) width
    exact top
  · obtain ⟨before, full, after, e, width, rest, top⟩ := passed.peaks 1 (by decide)
    obtain ⟨e, -⟩ := List.append_inj' (e.symm : _ = [.ofBytes [1], .ofBytes [2]] ++ [.ofBytes [3]]) rest
    obtain ⟨-, rfl⟩ := List.append_inj' (e : _ = [] ++ [.ofBytes [1], .ofBytes [2]]) width
    exact top

end Frontier

end SszMerkle
