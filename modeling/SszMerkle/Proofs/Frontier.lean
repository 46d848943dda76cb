/-
What a frontier computes: fed with the leaves of a row, one by one, it finishes with the root of the
reference tree of the limit's depth, and between its steps it visits every node of that tree that
lies above a leaf. A streaming pass therefore asks for each leaf below count and limit once, in
order, and its root is the reference root of what it was given.
-/
import SszMerkle.Proofs.Carry
import SszMerkle.Proofs.Run

namespace SszMerkle

namespace Frontier

variable {h : Hasher} {leaf : Nat → Root} {f : Frontier}

/-! ## One leaf -/

/-- A frontier that can go on: the stack spans the depth of the limit. -/
structure Ready (f : Frontier) : Prop where
  length : f.stack.length = f.limitDepth + 1
  le : f.count ≤ f.limit
  lt : f.limit < Word.bound

theorem start_ready (h : Hasher) {limit : Nat} (hl : limit < Word.bound) : (start h limit).Ready :=
  ⟨by simp [start, limitDepth], by simp [start], hl⟩

theorem kept_start (h : Hasher) (leaf : Nat → Root) (stack : List Root) (level : Nat) :
    Kept h leaf level 0 stack := by
  induction stack generalizing level with
  | nil => trivial
  | cons _ above ih => exact ⟨fun e => absurd e (by decide), ih (level + 1)⟩

theorem absorb_ok (hf : f.Ready) (room : f.count < f.limit) (r : Root) :
    ∃ stack visits, f.absorb r = .ok ({ f with count := f.count + 1, stack }, visits) ∧
      ({ f with count := f.count + 1, stack } : Frontier).Ready ∧ Within f.limitDepth visits := by
  have hroom : f.count < 2 ^ f.limitDepth := lt_of_lt_of_le room (Word.le_two_pow_depthFor f.limit)
  obtain ⟨stack, visits, hc, hlen, hw⟩ :=
    carry_ok f.hasher (Nat.zero_le 64) 0 r hf.length hroom (Nat.zero_le _)
  have hn : Word.next f.count = .ok (f.count + 1) := Word.next_eq (by have := hf.lt; omega)
  refine ⟨stack, .given 0 f.count r :: visits, ?_, ⟨by rw [hlen]; exact hf.length, room, hf.lt⟩, ?_⟩
  · simp only [absorb, hc, hn, bind, Except.bind]
    rfl
  · exact within_cons.2 ⟨Nat.zero_le _, by simpa using hw⟩

/-- Taking leaf `f.count` keeps the stack right, and visits the nodes that it completes. -/
theorem absorb_keeps {f' : Frontier} {r : Root} {visits : List Visit}
    (ha : f.absorb r = .ok (f', visits)) (hk : Kept f.hasher leaf 0 f.count f.stack)
    (hr : leaf f.count = r) :
    Kept f.hasher leaf 0 (f.count + 1) f'.stack ∧ Faithful f.hasher leaf visits ∧
      ∀ l x, (x + 1) * 2 ^ l = f.count + 1 → Shown visits l x := by
  unfold absorb at ha
  cases hc : carry f.hasher 0 0 f.count r f.stack with
  | error e => rw [hc] at ha; cases ha
  | ok c =>
    obtain ⟨stack, visits'⟩ := c
    cases hn : Word.next f.count with
    | error e => simp only [hc, hn, bind, Except.bind] at ha; cases ha
    | ok n =>
      simp only [hc, hn, bind, Except.bind] at ha
      cases ha
      obtain ⟨hk', hf, hs⟩ := carry_absorbs hc hk hr.symm
      refine ⟨hk', faithful_cons.2 ⟨hr.symm, hf⟩, fun l x hx => ?_⟩
      cases l with
      | zero => exact shown_cons.2 (.inl ⟨rfl, by simp [Visit.given] at hx ⊢; omega⟩)
      | succ l => exact shown_cons.2 (.inr (by simpa using hs l x hx))

/-! ## Many leaves -/

/-- Takes leaves in order. -/
def absorbAll : List Root → Frontier → Result (Frontier × List Visit)
  | [], f => .ok (f, [])
  | r :: rs, f => do
    let (f, visits) ← f.absorb r
    let (f, more) ← absorbAll rs f
    return (f, visits ++ more)

/-- Taking the leaves from `f.count` on keeps the stack right, and visits all nodes they complete. -/
theorem absorbAll_ok : ∀ {rs : List Root} {f : Frontier}, f.Ready → f.count + rs.length ≤ f.limit →
    Kept f.hasher leaf 0 f.count f.stack → (∀ i (hi : i < rs.length), leaf (f.count + i) = rs[i]) →
    ∃ stack visits, absorbAll rs f = .ok ({ f with count := f.count + rs.length, stack }, visits) ∧
      ({ f with count := f.count + rs.length, stack } : Frontier).Ready ∧
      Kept f.hasher leaf 0 (f.count + rs.length) stack ∧ Within f.limitDepth visits ∧
      Faithful f.hasher leaf visits ∧
      ∀ l x, f.count < (x + 1) * 2 ^ l → (x + 1) * 2 ^ l ≤ f.count + rs.length → Shown visits l x
  | [], f, hf, _, hk, _ =>
    ⟨f.stack, [], rfl, hf, hk, within_nil, faithful_nil, fun l x h1 h2 => by
      rw [List.length_nil] at h2; omega⟩
  | r :: rs, f, hf, room, hk, hl => by
    rw [List.length_cons] at room
    obtain ⟨stack, visits, ha, hf', hw⟩ := absorb_ok hf (by omega) r
    obtain ⟨hk', hfaith, hs⟩ := absorb_keeps ha hk (hl 0 (by simp))
    have room' : f.count + 1 + rs.length ≤ f.limit := by omega
    have hl' : ∀ i (hi : i < rs.length), leaf (f.count + 1 + i) = rs[i] := fun i hi => by
      have := hl (i + 1) (by simpa using hi)
      rw [List.getElem_cons_succ] at this
      rw [← this, Nat.add_right_comm, Nat.add_assoc]
    obtain ⟨stack', more, hm, hf'', hk'', hw', hfaith', hs'⟩ := absorbAll_ok hf' room' hk' hl'
    have e : f.count + (r :: rs).length = f.count + 1 + rs.length := by simp; omega
    rw [e]
    refine ⟨stack', visits ++ more, ?_, hf'', hk'', within_append.2 ⟨hw, hw'⟩,
      faithful_append.2 ⟨hfaith, hfaith'⟩, fun l x h1 h2 => shown_append.2 ?_⟩
    · simp only [absorbAll, ha, bind, Except.bind, hm]
      rfl
    · -- a node is complete with the leaf taken first, or with a later one
      rcases Nat.lt_or_ge (f.count + 1) ((x + 1) * 2 ^ l) with hx | hx
      · exact .inr (hs' l x hx h2)
      · exact .inl (hs l x (by omega))

/-- A watcher that accepts every visit up to a level, and stays able to. -/
def Accepts {σ : Type} (top : Nat) (watch : σ → Visit → Result σ) (P : σ → Prop) : Prop :=
  ∀ s v, P s → v.level ≤ top → ∃ s', watch s v = .ok s' ∧ P s'

theorem Accepts.foldlM {σ : Type} {top : Nat} {watch : σ → Visit → Result σ} {P : σ → Prop}
    (hw : Accepts top watch P) : ∀ {vs : List Visit} {s : σ}, P s → Within top vs →
      ∃ s', vs.foldlM watch s = .ok s' ∧ P s'
  | [], s, hs, _ => ⟨s, rfl, hs⟩
  | v :: vs, s, hs, hv => by
    obtain ⟨s', h1, hs'⟩ := hw s v hs (within_cons.1 hv).1
    obtain ⟨s'', h2, hs''⟩ := hw.foldlM hs' (within_cons.1 hv).2
    exact ⟨s'', by rw [List.foldlM_cons, h1]; exact h2, hs''⟩

/-- A watcher that never refuses. -/
theorem accepts_of_ok {σ : Type} (top : Nat) (see : σ → Visit → σ) :
    Accepts top (fun s v => .ok (see s v)) fun _ => True := fun _ _ _ _ => ⟨_, rfl, trivial⟩

/-- Takes leaves in order, then shows all visits to a watcher. -/
def watchAll {σ : Type} (watch : σ → Visit → Result σ) (rs : List Root) (f : Frontier) (s : σ) :
    Result (Frontier × σ) := do
  let (f, visits) ← absorbAll rs f
  let s ← visits.foldlM watch s
  return (f, s)

theorem watchAll_ok {σ : Type} {watch : σ → Visit → Result σ} {rs : List Root} {f f' : Frontier}
    {s s' : σ} {visits : List Visit} (ha : absorbAll rs f = .ok (f', visits))
    (hs : visits.foldlM watch s = .ok s') : watchAll watch rs f s = .ok (f', s') := by
  simp only [watchAll, ha, bind, Except.bind, hs]
  rfl

/-- A fed frontier asks for its leaves first to last, whatever asking does, and then holds what
taking them all gives. -/
theorem feed_eq {m : Type → Type} [Monad m] [LawfulMonad m] {σ : Type} {watch : σ → Visit → Result σ}
    {P : σ → Prop} (leaf : Nat → ExceptT Failure m Root) :
    ∀ {n : Nat} {f : Frontier} {s : σ}, f.Ready → f.count + n ≤ f.limit →
      Accepts f.limitDepth watch P → P s →
      feed watch leaf n f s =
        (List.range' f.count n).mapM leaf >>= fun rs => liftM (watchAll watch rs f s)
  | 0, f, s, _, _, _, _ => by
    rw [feed, List.range'_zero, List.mapM_nil, pure_bind]
    rfl
  | n + 1, f, s, hf, room, hw, hs => by
    rw [feed, List.range'_succ, List.mapM_cons, bind_assoc]
    refine bind_congr fun r => ?_
    obtain ⟨stack, visits, ha, hf', hv⟩ := absorb_ok hf (by omega) r
    obtain ⟨s', hs1, hs'⟩ := hw.foldlM hs hv
    have room' : f.count + 1 + n ≤ f.limit := by omega
    rw [ha, liftM_ok, pure_bind, bind_assoc]
    simp only [hs1, liftM_ok, pure_bind]
    rw [feed_eq leaf hf' room' hw hs']
    -- watching leaf by leaf is watching all visits in the end, as no leaf fails
    refine bind_congr fun rs => congrArg liftM ?_
    simp only [watchAll, absorbAll, ha, bind, Except.bind]
    cases hr : absorbAll rs { f with count := f.count + 1, stack } with
    | error e => rfl
    | ok c => simp only [pure, Except.pure, List.foldlM_append, hs1, bind, Except.bind]

theorem feed_start {m : Type → Type} [Monad m] [LawfulMonad m] {σ : Type}
    {watch : σ → Visit → Result σ} {P : σ → Prop} (leaf : Nat → ExceptT Failure m Root) {limit n : Nat}
    {s : σ} (hl : limit < Word.bound) (hn : n ≤ limit) (hw : Accepts (Word.depthFor limit) watch P)
    (hs : P s) :
    feed watch leaf n (start h limit) s =
      (List.range n).mapM leaf >>= fun rs => liftM (watchAll watch rs (start h limit) s) := by
  rw [List.range_eq_range']
  exact feed_eq leaf (start_ready h hl) (by show 0 + n ≤ limit; omega) hw hs

/-! ## Sealing -/

/-- Rising beside zero trees gives the root of the deeper tree whose other leaves are zero. -/
theorem rise_ok : ∀ {levels level : Nat} {top : Root}, level + levels ≤ 64 →
    top = Padded.node h leaf level 0 → (∀ i, 2 ^ level ≤ i → leaf i = .zero) →
    ∃ visits, rise h level levels top = .ok (Padded.node h leaf (level + levels) 0, visits) ∧
      Within (level + levels) visits ∧ Faithful h leaf visits ∧
      ∀ l, level < l → l ≤ level + levels → Shown visits l 0
  | 0, level, top, _, ht, _ =>
    ⟨[], by rw [ht]; rfl, within_nil, faithful_nil, fun l h1 h2 => by omega⟩
  | levels + 1, level, top, h64, ht, hz => by
    have right : zeroRoot h.combine level = Padded.node h leaf level 1 :=
      (Padded.node_eq_zeroRoot fun i hi => hz i (by simpa using hi)).symm
    have up : h.combine top (zeroRoot h.combine level) = Padded.node h leaf (level + 1) 0 := by
      rw [ht, right]
      exact Padded.combine_even rfl
    have h64' : level + 1 + levels ≤ 64 := by omega
    obtain ⟨visits, hr, hw, hf, hs⟩ := rise_ok h64' up
      fun i hi => hz i ((Nat.pow_le_pow_right (by norm_num) (by omega)).trans hi)
    rw [show level + 1 + levels = level + (levels + 1) by omega] at hr hw hs
    refine ⟨.given level 1 (zeroRoot h.combine level) ::
        .above h (level + 1) 0 top (zeroRoot h.combine level) :: visits, ?_,
      within_cons.2 ⟨Nat.le_add_right .., within_cons.2 ⟨by show level + 1 ≤ _; omega, hw⟩⟩,
      faithful_cons.2 ⟨right, faithful_cons.2 ⟨up, hf⟩⟩, fun l h1 h2 => ?_⟩
    · simp only [rise, Hasher.zero_eq (show level ≤ 64 by omega), Visit.above, bind, Except.bind, hr]
      rfl
    · rw [shown_cons, shown_cons]
      rcases Nat.lt_or_ge (level + 1) l with hl | hl
      · exact .inr (.inr (hs l hl h2))
      · exact .inr (.inl ⟨by show level + 1 = l; omega, rfl⟩)

/-- The tree for the count is complete: its root is on the stack, and the nodes that lie only partly
above the leaves taken were visited. -/
structure Completed (f : Frontier) (leaf : Nat → Root) (stack : List Root) (visits : List Visit) :
    Prop where
  top : stack[Word.depthFor f.count]? = some (Padded.node f.hasher leaf (Word.depthFor f.count) 0)
  within : Within f.limitDepth visits
  faithful : Faithful f.hasher leaf visits
  shown : ∀ l x, l ≤ Word.depthFor f.count → x * 2 ^ l < f.count → f.count < (x + 1) * 2 ^ l →
    Shown visits l x

variable (hf : f.Ready) (hk : Kept f.hasher leaf 0 f.count f.stack)
include hf hk

/-- A count of one bit has its root on the stack already, and no node is partial. -/
theorem completed_of_isPowerOfTwo (hp : Word.isPowerOfTwo f.count = true) :
    f.Completed leaf f.stack [] := by
  have e := Word.eq_two_pow_depthFor hp
  have hd : Word.depthFor f.count ≤ f.limitDepth := Word.depthFor_mono hf.le
  refine ⟨?_, within_nil, faithful_nil, fun l x hl h1 h2 => ?_⟩
  · obtain ⟨r, hr⟩ : ∃ r, f.stack[Word.depthFor f.count]? = some r :=
      ⟨_, List.getElem?_eq_getElem (by rw [hf.length]; omega)⟩
    have one : f.count / 2 ^ Word.depthFor f.count = 1 := by
      rw [← e, Nat.div_self (by rw [e]; positivity)]
    have := hk.getElem? hr (by rw [one])
    rw [hr, this, one, Nat.zero_add]
  · -- the count is a multiple of the width of every lower node
    have split : f.count = 2 ^ (Word.depthFor f.count - l) * 2 ^ l := by
      rw [← pow_add, Nat.sub_add_cancel hl]
      exact e
    generalize 2 ^ (Word.depthFor f.count - l) = q at split
    rw [split] at h1 h2
    have := Nat.lt_of_mul_lt_mul_right h1
    have := Nat.lt_of_mul_lt_mul_right h2
    omega

variable (hz : ∀ i, f.count ≤ i → leaf i = .zero)
include hz

theorem complete_ok : ∃ stack visits, f.complete = .ok (stack, visits) ∧
    f.Completed leaf stack visits := by
  have hd : Word.depthFor f.count ≤ f.limitDepth := Word.depthFor_mono hf.le
  have h64 : f.limitDepth ≤ 64 := Word.depthFor_le_64 hf.lt
  unfold complete
  cases hp : Word.isPowerOfTwo f.count with
  | true => exact ⟨f.stack, [], by simp, completed_of_isPowerOfTwo hf hk hp⟩
  | false =>
    -- a carry of a zero leaf, padded up to the depth for the count, completes the tree
    have lt := Word.lt_two_pow_depthFor hp
    obtain ⟨stack, visits, hc, hlen, hw⟩ := carry_ok f.hasher (hd.trans h64) 0
      (zeroRoot f.hasher.combine 0) hf.length
      (lt_of_lt_of_le lt (Nat.pow_le_pow_right (by norm_num) hd)) (by omega)
    have hn : zeroRoot f.hasher.combine 0 = Padded.node f.hasher leaf 0 f.count := (hz _ le_rfl).symm
    rw [← Nat.zero_add (Word.depthFor f.count)] at hc
    obtain ⟨ht, hfaith, hs⟩ := carry_completes hc hk hn
      (fun i hi => hz i (by rw [pow_zero, mul_one] at hi; omega)) (by omega) lt
    rw [Nat.zero_add] at ht hc
    refine ⟨stack, .given 0 f.count (zeroRoot f.hasher.combine 0) :: visits, ?_, ht,
      within_cons.2 ⟨Nat.zero_le _, by simpa using hw⟩, faithful_cons.2 ⟨hn, hfaith⟩,
      fun l x hl h1 h2 => shown_cons.2 (.inr ?_)⟩
    · simp only [Bool.false_eq_true, if_false, Hasher.zero_eq (show 0 ≤ 64 by omega), bind,
        Except.bind, hc]
      rfl
    · -- a partial node is the one above the first leaf not taken
      have hx : x = f.count / 2 ^ l :=
        (Nat.div_eq_of_lt_le (by omega) h2).symm
      cases l with
      | zero => rw [pow_zero] at h1 h2; omega
      | succ l =>
        rw [hx]
        simpa using hs l hl

/-- Sealing gives the reference root of the leaves taken, and visits the nodes that lie only partly
above them. -/
theorem finish_ok : ∃ visits, f.finish = .ok (Padded.root f.hasher f.limitDepth leaf, visits) ∧
    Within f.limitDepth visits ∧ Faithful f.hasher leaf visits ∧
    ∀ l x, l ≤ f.limitDepth → x * 2 ^ l < f.count → f.count < (x + 1) * 2 ^ l → Shown visits l x := by
  have hd : Word.depthFor f.count ≤ f.limitDepth := Word.depthFor_mono hf.le
  have h64 : f.limitDepth ≤ 64 := Word.depthFor_le_64 hf.lt
  obtain ⟨stack, completed, hc, ht, hw, hfaith, hs⟩ := complete_ok hf hk hz
  have hsum : Word.depthFor f.count + (f.limitDepth - Word.depthFor f.count) = f.limitDepth := by omega
  obtain ⟨risen, hr, hw', hfaith', hs'⟩ := rise_ok (hsum.le.trans h64)
    (rfl : Padded.node f.hasher leaf (Word.depthFor f.count) 0 = _)
    fun i hi => hz i ((Word.le_two_pow_depthFor f.count).trans hi)
  rw [hsum] at hr hw' hs'
  refine ⟨completed ++ risen, ?_, within_append.2 ⟨hw, hw'⟩, faithful_append.2 ⟨hfaith, hfaith'⟩,
    fun l x hl h1 h2 => shown_append.2 ?_⟩
  · simp only [finish, hc, bind, Except.bind, ht, hr]
    rfl
  · rcases Nat.lt_or_ge (Word.depthFor f.count) l with h | h
    · -- above the tree for the count only the leftmost nodes have a leaf below them
      have fits : f.count ≤ 2 ^ l := (Word.le_two_pow_depthFor _).trans
        (Nat.pow_le_pow_right (by norm_num) h.le)
      have hx : x = 0 := by
        rcases Nat.eq_zero_or_pos x with hx | hx
        · exact hx
        · have := Nat.mul_le_mul_right (2 ^ l) hx
          omega
      exact .inr (hx ▸ hs' l h hl)
    · exact .inl (hs l x h h1 h2)

omit hf hk hz in
/-- A whole pass over a row of leaves within the limit: it seals to the reference root, and its
visits are nodes of the reference tree, among them every one above a leaf of the row. -/
theorem pass_ok (h : Hasher) {limit : Nat} (hl : limit < Word.bound) {rs : List Root}
    (hrs : rs.length ≤ limit) : ∃ f visits more,
      absorbAll rs (start h limit) = .ok (f, visits) ∧
      f.finish = .ok (Padded.root h (Word.depthFor limit) (Padded.row rs), more) ∧
      Within (Word.depthFor limit) (visits ++ more) ∧ Faithful h (Padded.row rs) (visits ++ more) ∧
      ∀ l x, l ≤ Word.depthFor limit → x * 2 ^ l < rs.length → Shown (visits ++ more) l x := by
  have room : (start h limit).count + rs.length ≤ (start h limit).limit := by simpa [start] using hrs
  obtain ⟨stack, visits, ha, hf, hk, hw, hfaith, hs⟩ := absorbAll_ok (start_ready h hl) room
    (kept_start h (Padded.row rs) _ 0) fun i hi => by
      show rs.getD (0 + i) .zero = rs[i]
      rw [Nat.zero_add, List.getD_eq_getElem?_getD, List.getElem?_eq_getElem hi]
      rfl
  have count : (start h limit).count + rs.length = rs.length := Nat.zero_add _
  simp only [count] at ha hf hk hs
  obtain ⟨more, hm, hw', hfaith', hs'⟩ := finish_ok hf hk fun i hi => Padded.row_of_le hi
  refine ⟨_, visits, more, ha, hm, within_append.2 ⟨hw, hw'⟩, faithful_append.2 ⟨hfaith, hfaith'⟩,
    fun l x hl h1 => shown_append.2 ?_⟩
  rcases Nat.lt_or_ge rs.length ((x + 1) * 2 ^ l) with h2 | h2
  · exact .inr (hs' l x hl h1 h2)
  · exact .inl (hs l x (by show 0 < _; positivity) h2)

end Frontier

/-! ## The root of a row -/

section Merkleize

variable {m : Type → Type} [Monad m] [LawfulMonad m]

/-- A leaf is asked for once for each number below count and limit, in order; then the root is that
of the reference tree over what was answered. -/
theorem merkleize_eq (h : Hasher) (count : Nat) {limit : Nat} (hl : limit < Word.bound)
    (leaf : Nat → ExceptT Failure m Root) :
    merkleize h count limit leaf = (do
      let leaves ← (List.range (min count limit)).mapM leaf
      return Padded.root h (Word.depthFor limit) (Padded.row leaves)) := by
  have accepts := Frontier.accepts_of_ok (Word.depthFor limit) fun (_ : Unit) _ => ()
  rw [merkleize, Frontier.feed_start leaf hl (Nat.min_le_right ..) accepts trivial, bind_assoc]
  refine mapM_bind_congr fun rs hrs => ?_
  rw [List.length_range] at hrs
  obtain ⟨f, visits, more, ha, hm, hw, -⟩ := Frontier.pass_ok h hl (hrs.le.trans (Nat.min_le_right ..))
  obtain ⟨s, hs, -⟩ := accepts.foldlM trivial (Frontier.within_append.1 hw).1
  have root : f.root = .ok (Padded.root h (Word.depthFor limit) (Padded.row rs)) := by
    simp only [Frontier.root, hm, bind, Except.bind]
    rfl
  rw [Frontier.watchAll_ok ha hs, liftM_ok, pure_bind]
  show liftM f.root = _
  rw [root, liftM_ok]

/-- Leaves that are at hand. -/
theorem merkleize_pure (h : Hasher) (count : Nat) {limit : Nat} (hl : limit < Word.bound)
    (leaf : Nat → Root) :
    merkleize h count limit (fun i => (pure (leaf i) : ExceptT Failure m Root)) =
      pure (Padded.root h (Word.depthFor limit) (Padded.clip (min count limit) leaf)) := by
  rw [merkleize_eq h count hl, List.mapM_pure, pure_bind, Padded.row_map_range]

end Merkleize

/-- Answers with a leaf and writes down which one was asked for. -/
def recorded (leaf : Nat → Root) (i : Nat) : ExceptT Failure (StateM (List Nat)) Root := do
  modifyThe (List Nat) (· ++ [i])
  return leaf i

theorem run_mapM_recorded (leaf : Nat → Root) : ∀ l asked : List Nat,
    (l.mapM (recorded leaf)).run.run asked = (.ok (l.map leaf), asked ++ l)
  | [], asked => by rw [List.append_nil]; rfl
  | i :: l, asked => by
    have hi : (recorded leaf i).run.run asked = (.ok (leaf i), asked ++ [i]) := rfl
    have ih := run_mapM_recorded leaf l (asked ++ [i])
    rw [List.append_assoc] at ih
    rw [List.mapM_cons, run_bind_ok hi, run_bind_ok ih]
    rfl

/-- A streaming pass gives the root of the complete tree of the limit's depth whose leaf `i` is the
one asked for below count and limit and zero elsewhere. It asks for the leaves below both, each
once, first to last: in any monad it is no more than those requests in order, and written down they
are the numbers below both. -/
theorem merkleize_root_and_requests (h : Hasher) (count : Nat) {limit : Nat} (hl : limit < Word.bound) :
    (∀ (m : Type → Type) [Monad m] [LawfulMonad m] (leaf : Nat → ExceptT Failure m Root),
      merkleize h count limit leaf = (do
        let leaves ← (List.range (min count limit)).mapM leaf
        return Padded.root h (Word.depthFor limit) (Padded.row leaves))) ∧
    ∀ leaf : Nat → Root, (merkleize h count limit (recorded leaf)).run.run [] =
      (.ok (Padded.root h (Word.depthFor limit) (Padded.clip (min count limit) leaf)),
        List.range (min count limit)) := by
  constructor
  · intro m _ _ leaf
    exact merkleize_eq h count hl leaf
  · intro leaf
    rw [merkleize_eq h count hl, run_bind_ok (run_mapM_recorded leaf _ []), Padded.row_map_range,
      List.nil_append]
    rfl

/-- Nine leaves offered to a tree for three: three are asked for. -/
theorem merkleize_three_of_nine : 3 < Word.bound ∧
    (merkleize .sha256 9 3 (recorded fun i => .ofBytes [UInt8.ofNat i])).run.run [] =
      (.ok (Hasher.sha256.combine
        (Hasher.sha256.combine (.ofBytes [0]) (.ofBytes [1]))
        (Hasher.sha256.combine (.ofBytes [2]) .zero)), [0, 1, 2]) :=
  ⟨by decide, (merkleize_root_and_requests .sha256 9 (by decide)).2 _⟩

end SszMerkle
