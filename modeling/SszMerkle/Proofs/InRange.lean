/-
Passes and walks that never leave their range. A frontier that grew leaf by leaf keeps one root for each
level up to the limit's depth, and neither a further leaf nor sealing it touches a level above. So hashing
a row cannot fail, and opening it, proving a node of a tree and putting a node into one fail only for a
cause that a caller is told: a level lies on the stack and on the branch, a count is a word, and a zero
root is asked for down to depth 64 only.
-/
import SszMerkle.Proofs.Breach
import SszMerkle.Proofs.Provable
import SszMerkle.Proofs.Visits

namespace SszMerkle

/-! ## Work that cannot fail -/

section Assured

variable {m : Type → Type} [Monad m] {α β : Type}

/-- The work never fails, and all its answers are as described. -/
def Assured (x : ExceptT Failure m α) (P : α → Prop) : Prop :=
  ∃ y : m {a // P a}, x = liftM (Subtype.val <$> y)

namespace Assured

variable [LawfulMonad m] {x : ExceptT Failure m α} {k : α → ExceptT Failure m β} {P : α → Prop}
  {Q : β → Prop}

theorem pure {a : α} (ha : P a) : Assured (Pure.pure a : ExceptT Failure m α) P :=
  ⟨Pure.pure ⟨a, ha⟩, by rw [map_pure, liftM_pure]⟩

theorem lift (x : m α) : Assured (liftM x : ExceptT Failure m α) fun _ => True :=
  ⟨(fun a => ⟨a, trivial⟩) <$> x, by rw [← comp_map]; exact congrArg _ (id_map x).symm⟩

theorem bind (hx : Assured x P) (hk : ∀ a, P a → Assured (k a) Q) : Assured (x >>= k) Q := by
  obtain ⟨y, rfl⟩ := hx
  choose z hz using hk
  refine ⟨y >>= fun a => z a.1 a.2, ?_⟩
  rw [map_bind, liftM_bind, liftM_map, bind_map_left]
  exact bind_congr fun a => hz a.1 a.2

end Assured

end Assured

/-! ## Growing -/

namespace Frontier

variable {h : Hasher} {limit : Nat} {f : Frontier}

/-- A frontier that took its leaves one by one. -/
inductive Grown (h : Hasher) (limit : Nat) : Frontier → Prop
  | start : Grown h limit (start h limit)
  | push {f f' : Frontier} {r : Root} : Grown h limit f → f.push r = .ok f' → Grown h limit f'

/-- There is room for a leaf that was taken. -/
theorem lt_limit_of_push {f' : Frontier} {r : Root} (hp : f.push r = .ok f') : f.count < f.limit := by
  unfold push at hp
  split at hp
  · obtain ⟨length, -, e⟩ := bind_eq_ok hp
    cases e
  · rename_i room
    exact Nat.lt_of_not_le room

theorem rise_succeeds : ∀ {levels level : Nat} (top : Root), level + levels ≤ 64 →
    ∃ root visits, rise h level levels top = .ok (root, visits)
  | 0, _, top, _ => ⟨top, [], rfl⟩
  | levels + 1, level, top, h64 => by
    have rest : level + 1 + levels ≤ 64 := by omega
    obtain ⟨root, visits, hr⟩ := rise_succeeds (h.combine top (zeroRoot h.combine level)) rest
    refine ⟨root, .given level 1 (zeroRoot h.combine level) ::
      .above h (level + 1) 0 top (zeroRoot h.combine level) :: visits, ?_⟩
    simp only [rise, Hasher.zero_eq (show level ≤ 64 by omega), Visit.above, bind, Except.bind, hr]
    rfl

namespace Ready

variable (hf : f.Ready)
include hf

theorem push_ok (room : f.count < f.limit) (r : Root) : ∃ f' visits, f.absorb r = .ok (f', visits) ∧
    f.push r = .ok f' ∧ f'.Ready ∧ f'.limit = f.limit ∧ f'.count = f.count + 1 := by
  obtain ⟨stack, visits, ha, hf', -⟩ := absorb_ok hf room r
  refine ⟨_, visits, ha, ?_, hf', rfl, rfl⟩
  unfold push
  rw [if_neg (Nat.not_le.2 room), ha]
  rfl

theorem complete_ok : ∃ stack visits, f.complete = .ok (stack, visits) ∧
    stack.length = f.limitDepth + 1 := by
  have hd : Word.depthFor f.count ≤ f.limitDepth := Word.depthFor_mono hf.le
  have h64 : f.limitDepth ≤ 64 := Word.depthFor_le_64 hf.lt
  unfold complete
  split
  · exact ⟨f.stack, [], rfl, hf.length⟩
  · rename_i hp
    have lt := Word.lt_two_pow_depthFor (Bool.eq_false_iff.2 hp)
    obtain ⟨stack, visits, hc, hlen, -⟩ := carry_ok f.hasher (hd.trans h64) 0
      (zeroRoot f.hasher.combine 0) hf.length
      (lt_of_lt_of_le lt (Nat.pow_le_pow_right (by norm_num) hd)) (by omega)
    refine ⟨stack, .given 0 f.count (zeroRoot f.hasher.combine 0) :: visits, ?_, hlen.trans hf.length⟩
    simp only [Hasher.zero_eq (Nat.zero_le 64), bind, Except.bind, hc]
    rfl

theorem finish_ok : ∃ root visits, f.finish = .ok (root, visits) ∧ f.root = .ok root := by
  have hd : Word.depthFor f.count ≤ f.limitDepth := Word.depthFor_mono hf.le
  have h64 : f.limitDepth ≤ 64 := Word.depthFor_le_64 hf.lt
  obtain ⟨stack, completed, hc, hlen⟩ := hf.complete_ok
  have top : stack[Word.depthFor f.count]? = some stack[Word.depthFor f.count] :=
    List.getElem?_eq_getElem (by omega)
  obtain ⟨root, risen, hr⟩ := rise_succeeds (h := f.hasher) stack[Word.depthFor f.count]
    (show Word.depthFor f.count + (f.limitDepth - Word.depthFor f.count) ≤ 64 by omega)
  have hm : f.finish = .ok (root, completed ++ risen) := by
    simp only [finish, hc, bind, Except.bind, top, hr]
    rfl
  refine ⟨root, _, hm, ?_⟩
  unfold Frontier.root
  rw [hm]
  rfl

end Ready

theorem Grown.ready (hl : limit < Word.bound) (hf : Grown h limit f) : f.Ready ∧ f.limit = limit := by
  induction hf with
  | start => exact ⟨start_ready h hl, rfl⟩
  | push _ hp ih =>
    obtain ⟨ready, same⟩ := ih
    obtain ⟨f', visits, -, hp', ready', same', -⟩ := ready.push_ok (lt_limit_of_push hp) _
    rw [hp] at hp'
    cases hp'
    exact ⟨ready', same'.trans same⟩

/-- What a frontier does next, and what it has, stays within the limit and its depth. -/
structure InRange (limit : Nat) (f : Frontier) : Prop where
  /-- One root is kept for each level of the tree. -/
  length : f.stack.length = Word.depthFor limit + 1
  count_le : f.count ≤ limit
  /-- The tree for the leaves taken is no deeper than the whole. -/
  depth_le : Word.depthFor f.count ≤ Word.depthFor limit
  /-- A leaf that there is room for is taken, and counted. -/
  takes : f.count < limit → ∀ r, ∃ f' visits, f.absorb r = .ok (f', visits) ∧ f.push r = .ok f' ∧
    f'.count = f.count + 1 ∧ Inside (Word.depthFor limit) visits
  /-- The last partial tree is completed on the same stack. -/
  completes : ∃ stack visits, f.complete = .ok (stack, visits) ∧
    stack.length = Word.depthFor limit + 1 ∧ Inside (Word.depthFor limit) visits
  seals : ∃ root visits, f.finish = .ok (root, visits) ∧ f.root = .ok root ∧
    Inside (Word.depthFor limit) visits

theorem Grown.inRange (hl : limit < Word.bound) (hf : Grown h limit f) : f.InRange limit := by
  obtain ⟨ready, rfl⟩ := hf.ready hl
  refine ⟨ready.length, ready.le, Word.depthFor_mono ready.le, fun room r => ?_, ?_, ?_⟩
  · obtain ⟨f', visits, ha, hp, -, -, count⟩ := ready.push_ok room r
    exact ⟨f', visits, ha, hp, count, absorb_inside room ha⟩
  · obtain ⟨stack, visits, hc, length⟩ := ready.complete_ok
    exact ⟨stack, visits, hc, length, complete_inside ready hc⟩
  · obtain ⟨root, visits, hm, hr⟩ := ready.finish_ok
    exact ⟨root, visits, hm, hr, finish_inside ready hm⟩

/-! ## A pass -/

/-- Fed with leaves that are always there, a frontier takes them all, however its visits are watched. -/
theorem Grown.feed {m : Type → Type} [Monad m] [LawfulMonad m] {σ : Type} {watch : σ → Visit → Result σ}
    {P : σ → Prop} {leaf : Nat → ExceptT Failure m Root} (hl : limit < Word.bound)
    (hw : Accepts (Word.depthFor limit) watch P) :
    ∀ {n : Nat} {f : Frontier} {s : σ}, Grown h limit f → f.count + n ≤ limit → P s →
      (∀ i < f.count + n, Assured (leaf i) fun _ => True) →
      Assured (Frontier.feed watch leaf n f s) fun p => Grown h limit p.1 ∧ P p.2
  | 0, f, s, hf, _, hs, _ => .pure ⟨hf, hs⟩
  | n + 1, f, s, hf, room, hs, hleaf => by
    refine (hleaf f.count (by omega)).bind fun r _ => ?_
    obtain ⟨f', visits, ha, hp, count, inside⟩ := (hf.inRange hl).takes (by omega) r
    obtain ⟨s', hfold, hs'⟩ := hw.foldlM hs fun v hv => (inside v hv).1
    have same : f'.count + n = f.count + (n + 1) := by omega
    simp only [ha, hfold, liftM_ok, pure_bind]
    exact feed hl hw (.push hf hp) (same.trans_le room) hs' fun i hi => hleaf i (same ▸ hi)

/-- A pass from the start takes all leaves below count and limit. -/
theorem pass_assured {m : Type → Type} [Monad m] [LawfulMonad m] {σ : Type}
    {watch : σ → Visit → Result σ} {P : σ → Prop} {leaf : Nat → ExceptT Failure m Root} {count : Nat}
    (hl : limit < Word.bound) (hleaf : ∀ i < min count limit, Assured (leaf i) fun _ => True)
    (hw : Accepts (Word.depthFor limit) watch P) {s : σ} (hs : P s) :
    Assured (Frontier.feed watch leaf (min count limit) (.start h limit) s) fun p =>
      Grown h limit p.1 ∧ P p.2 := by
  have all : (start h limit).count + min count limit = min count limit := Nat.zero_add _
  exact Grown.feed hl hw .start (all.trans_le (Nat.min_le_right ..)) hs fun i hi => hleaf i (all ▸ hi)

end Frontier

/-- Hashing leaves that are always there cannot fail. -/
theorem merkleize_assured {m : Type → Type} [Monad m] [LawfulMonad m] (h : Hasher) {count limit : Nat}
    (hl : limit < Word.bound) {leaf : Nat → ExceptT Failure m Root}
    (hleaf : ∀ i < min count limit, Assured (leaf i) fun _ => True) :
    Assured (merkleize h count limit leaf) fun _ => True := by
  have accepts := Frontier.accepts_of_ok (Word.depthFor limit) fun (_ : Unit) _ => ()
  unfold merkleize
  refine (Frontier.pass_assured hl hleaf accepts trivial).bind fun ⟨f, _⟩ ⟨grown, _⟩ => ?_
  obtain ⟨root, _, -, hr, -⟩ := (grown.inRange hl).seals
  simp only [hr, liftM_ok]
  exact .pure trivial

/-! ## Opening a tree -/

theorem TreeM.Unbroken.mapM {α β : Type} {f : α → TreeM β} :
    ∀ {l : List α}, (∀ a ∈ l, TreeM.Unbroken (f a)) → TreeM.Unbroken (l.mapM f)
  | [], _ => .pure []
  | a :: l, hf => by
    rw [List.mapM_cons]
    refine .bind (hf a List.mem_cons_self) fun b => ?_
    exact .bind (mapM fun a' ha => hf a' (List.mem_cons_of_mem a ha)) fun bs => .pure _

theorem Proof.extend_unbroken (p inner : Proof) (proven : Root) :
    Result.Unbroken (p.extend inner proven) := by
  unfold extend
  split
  · exact .ok _
  · exact .error nofun

/-- What opening a tree of a depth at the part of a target that lies in it takes away from a depth is no
more than that depth, and where it puts a root there is a place. -/
structure Opening.InRange (h : Hasher) (depth : Nat) (g outer inner : Gindex) : Prop where
  outer_le : outer.depth ≤ depth
  depth_add : outer.depth + inner.depth = g.depth
  /-- The branch starts with a root for each level below the tree's. -/
  starts : ∃ o, start h depth outer = .ok o ∧ Fits outer o
  /-- A node on the branch is no deeper than the target, and its place is on the branch. -/
  beside : ∀ c : Gindex, c.isProofOf outer = true → 0 < c.depth ∧ c.depth ≤ outer.depth ∧
    outer.depth - c.depth < outer.depth
  /-- Visits of the tree's levels keep the branch as long as it is. -/
  watches : Frontier.Accepts depth (watch depth outer) (Fits outer)

theorem Opening.inRange (h : Hasher) {depth : Nat} (h64 : depth ≤ 64) {g outer inner : Gindex}
    (hov : 0 < outer.val) (hle : outer.depth ≤ depth) (hadd : outer.depth + inner.depth = g.depth) :
    Opening.InRange h depth g outer inner where
  outer_le := hle
  depth_add := hadd
  starts := ⟨_, start_ok h h64 hle, by simp [Fits]⟩
  beside c hc := by
    simp only [Gindex.isProofOf, Bool.and_eq_true, decide_eq_true_eq] at hc
    obtain ⟨⟨h0, h1⟩, -⟩ := hc
    exact ⟨h0, h1, by omega⟩
  watches := accepts_watch hov hle

/-- Opening a tree fails only as its leaves or the proofs below them do, or for a cause of its own that a
caller is told. Both are asked for below the count and the limit only. -/
theorem openTree_unbroken {h : Hasher} {count limit : Nat} (hl : limit < Word.bound) {g : Gindex}
    (hg : 0 < g.val) {leaf : Nat → TreeM Root} {below : Nat → Gindex → TreeM (Option Proof)}
    (hleaf : ∀ i < min count limit, TreeM.Unbroken (leaf i))
    (hbelow : ∀ i < min count limit, ∀ rest : Gindex, 0 < rest.val → TreeM.Unbroken (below i rest)) :
    TreeM.Unbroken (openTree h count limit g leaf below) := by
  obtain ⟨outer, inner, hsplit, -, hiv, -⟩ := Gindex.splitAt_depths hg (Word.depthFor limit)
  rw [openTree_eq h count hl hg hsplit]
  refine .bind (.mapM fun i hi => hleaf i (List.mem_range.1 hi)) fun leaves => ?_
  dsimp only
  split
  · exact .pure _
  split
  · exact .throw_bind (by simp)
  · rename_i there
    refine .bind (hbelow _ (Nat.lt_of_not_le there) inner hiv) fun found => ?_
    cases found with
    | none => exact .throw nofun
    | some sub => exact .result (Proof.extend_unbroken _ sub _)

/-! ## Walking down a tree -/

namespace Node

variable {h : Hasher} {target : Gindex}

theorem branch_unbroken : ∀ {path : List Bool} (n : Node), path.length ≤ 64 →
    TreeM.Unbroken (n.branch h target path)
  | [], _, _ => .pure []
  | _ :: path, .leaf _ c, h64 => by
    rw [List.length_cons] at h64
    rw [branch, zeroBranch_ok h64]
    refine .bind (.result (Hasher.zero_unbroken h64)) fun zero => ?_
    split
    · exact .throw_bind (by simp)
    · exact .pure _
  | right :: path, .pair _ l r, h64 => by
    rw [branch]
    refine .bind (.lift _) fun sibling => ?_
    exact .bind (branch_unbroken _ (Nat.le_of_succ_le h64)) fun below => .pure _

theorem prove_unbroken (n : Node) (g : Gindex) : TreeM.Unbroken (n.prove h g) := by
  have h64 : g.path.length ≤ 64 := by rw [Gindex.length_path]; exact g.depth_lt.le
  exact .bind (branch_unbroken n h64) fun branch => .bind (.lift _) fun root => .pure _

end Node

/-! ## All of them -/

/-- Under a limit that is a word, nothing leaves its range. A frontier that took its leaves one by one,
within its limit, keeps one root for each level up to the limit's depth, which is at most 64, and can take
the next leaf, complete its last partial tree and be sealed, at no level above. A pass over leaves that are
always there goes through such frontiers, and hashing them cannot fail. Opening a tree splits the target
into two whose depths add up to its own, the first in the tree, takes no depth away from a smaller one, and
keeps each root at a place of the branch; it fails for no breach unless a leaf or a proof below one does.
Neither does proving a node of a tree, nor putting one into it, where no more than 63 steps are left. -/
theorem passes_and_walks_in_range (h : Hasher) {limit : Nat} (hl : limit < Word.bound) :
    (Word.depthFor limit ≤ 64 ∧ ∀ f, Frontier.Grown h limit f → f.InRange limit) ∧
    (∀ (m : Type → Type) [Monad m] [LawfulMonad m] (count : Nat) (leaf : Nat → ExceptT Failure m Root),
      (∀ i < min count limit, Assured (leaf i) fun _ => True) →
        Assured (merkleize h count limit leaf) (fun _ => True) ∧
        ∀ (σ : Type) (watch : σ → Visit → Result σ) (P : σ → Prop) (s : σ),
          Frontier.Accepts (Word.depthFor limit) watch P → P s →
            Assured (Frontier.feed watch leaf (min count limit) (.start h limit) s) fun p =>
              Frontier.Grown h limit p.1 ∧ P p.2) ∧
    (∀ g : Gindex, 0 < g.val → ∃ outer inner, g.splitAt (Word.depthFor limit) = (outer, inner) ∧
      Opening.InRange h (Word.depthFor limit) g outer inner ∧
      ∀ (count : Nat) (leaf : Nat → TreeM Root) (below : Nat → Gindex → TreeM (Option Proof)),
        (∀ i < min count limit, TreeM.Unbroken (leaf i)) →
        (∀ i < min count limit, ∀ rest : Gindex, 0 < rest.val → TreeM.Unbroken (below i rest)) →
          TreeM.Unbroken (openTree h count limit g leaf below)) ∧
    ∀ (n : Node) (g : Gindex), g.path.length = g.depth ∧ g.depth ≤ 63 ∧
      TreeM.Unbroken (n.prove h g) ∧ Result.Unbroken (n.graftInto h g) := by
  have h64 := Word.depthFor_le_64 hl
  refine ⟨⟨h64, fun f hf => hf.inRange hl⟩, fun m _ _ count leaf hleaf => ⟨?_, ?_⟩, fun g hg => ?_,
    fun n g => ?_⟩
  · exact merkleize_assured h hl hleaf
  · intro σ watch P s hw hs
    exact Frontier.pass_assured hl hleaf hw hs
  · obtain ⟨outer, inner, hsplit, hov, -, hle, hadd⟩ := Gindex.splitAt_depths hg (Word.depthFor limit)
    refine ⟨outer, inner, hsplit, Opening.inRange h h64 hov hle hadd, ?_⟩
    intro count leaf below hleaf hbelow
    exact openTree_unbroken hl hg hleaf hbelow
  · exact ⟨g.length_path, Nat.le_of_lt_succ g.depth_lt, n.prove_unbroken g, n.graftInto_unbroken g⟩

/-- The greatest limit has a tree of depth 64, and its stack 65 places. As many leaves as that can be hashed,
whoever asks for them, and the last node that has a gindex can be opened. -/
theorem in_range_at_greatest_limit :
    2 ^ 64 - 1 < Word.bound ∧ Word.depthFor (2 ^ 64 - 1) = 64 ∧
    (Frontier.start .sha256 (2 ^ 64 - 1)).stack.length = 65 ∧
    (Frontier.start .sha256 (2 ^ 64 - 1)).InRange (2 ^ 64 - 1) ∧
    Assured (m := StateM Nat) (merkleize .sha256 (2 ^ 64 - 1) (2 ^ 64 - 1) fun i =>
      liftM (do set i; return .zero : StateM Nat Root)) (fun _ => True) ∧
    TreeM.Unbroken (openTree .sha256 (2 ^ 64 - 1) (2 ^ 64 - 1) ⟨2 ^ 64 - 1, by decide⟩
      (fun _ => pure .zero) fun _ _ => pure none) := by
  have below : 2 ^ 64 - 1 < Word.bound := by decide
  obtain ⟨⟨-, grown⟩, hashed, opened, -⟩ := passes_and_walks_in_range .sha256 below
  have fresh := grown _ .start
  obtain ⟨_, _, -, -, opens⟩ := opened ⟨2 ^ 64 - 1, by decide⟩ (by decide)
  refine ⟨below, by decide, fresh.length.trans (by decide), fresh, ?_, ?_⟩
  · exact (hashed (StateM Nat) _ _ fun _ _ => .lift _).1
  · exact opens _ _ _ (fun _ _ => .pure _) fun _ _ _ _ => .pure _

end SszMerkle
