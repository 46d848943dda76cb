/-
How long a list can be. A list is created empty or opened from any tree under any limit that is a word,
and from then on its length keeps to the limit, whatever is asked of it and whatever becomes of the
store: an operation that fails leaves the list alone, and one that succeeds changes the length by one
within the limit. So nothing that a list computes leaves the words, with one exception: a list of the
greatest length there is, which only a tree can be opened as, cannot say how long it would grow.
-/
import SszMerkle.Proofs.Breach
import SszMerkle.Proofs.Lengths
import SszMerkle.Proofs.LengthChunk

namespace SszMerkle

namespace MerkleList

/-! ## What a list keeps to -/

/-- A length within a limit that is a word, and a tree of the depth for the limit. -/
structure Bounded (l : MerkleList) : Prop where
  limit_lt : l.limit < Word.bound
  length_le : l.length ≤ l.limit
  depth_eq : l.view.depth = Word.depthFor l.limit + 1

variable {h : Hasher} {backing : Node} {limit : Nat} {l : MerkleList}

theorem empty_yields (hl : limit < Word.bound) : Yields (empty h limit) Bounded := by
  unfold empty
  refine .after fun content => .after fun chunk => .after fun backing => ?_
  exact .pure ⟨hl, Nat.zero_le _, rfl⟩

theorem bounded_of_ofBacking (hl : limit < Word.bound) (e : ofBacking h backing limit = .ok l) :
    l.Bounded := by
  obtain ⟨_, _, _, room, rfl⟩ := exists_leaf_of_ofBacking e
  exact ⟨hl, room, rfl⟩

theorem Bounded.set_yields (hl : l.Bounded) (i : Nat) (n : Node) : Yields (l.set i n) Bounded := by
  have depth : Yields (l.view.set i n) fun v => v.depth = l.view.depth := by
    unfold LevelView.set
    exact .after fun g => .after fun graft => .after fun backing => .pure rfl
  unfold set
  refine .after fun _ => .bind depth fun v hv => ?_
  exact .pure ⟨hl.limit_lt, hl.length_le, hv.trans hl.depth_eq⟩

theorem Bounded.append_yields (hl : l.Bounded) (n : Node) : Yields (l.append n) Bounded := by
  unfold append
  split
  · exact .after fun length => .throw_bind _
  · rename_i room
    refine .after fun g => .after fun graft => .after fun grown => .after fun backing => ?_
    exact .pure ⟨hl.limit_lt, Nat.not_le.1 room, hl.depth_eq⟩

theorem Bounded.pop_yields (hl : l.Bounded) : Yields l.pop fun out => out.2.Bounded := by
  unfold pop
  split
  · exact .throw_bind _
  · refine .after fun g => .after fun popped => .after fun graft => ?_
    refine .after fun zero => .after fun cleared => .after fun backing => ?_
    exact .pure ⟨hl.limit_lt, (Nat.sub_le ..).trans hl.length_le, hl.depth_eq⟩

/-! ## No breach -/

theorem checkIndex_unbroken (l : MerkleList) (i : Nat) : Result.Unbroken (l.checkIndex i) := by
  unfold checkIndex
  split
  · exact .error nofun
  · exact .ok _

theorem withLength_unbroken (backing : Node) (length : Nat) :
    TreeM.Unbroken (withLength backing length) := by
  unfold withLength
  refine .bind (.result (backing.graftAt_unbroken _)) fun graft => ?_
  exact .bind (.lift _) fun chunk => .lift _

theorem empty_unbroken (hl : limit < Word.bound) : TreeM.Unbroken (empty h limit) := by
  unfold empty
  refine .bind (.result (Hasher.zeroLeaf_unbroken (Word.depthFor_le_64 hl))) fun content => ?_
  refine .bind (.result (Hasher.zeroLeaf_unbroken (Nat.zero_le _))) fun chunk => ?_
  exact .bind (.lift _) fun backing => .pure _

theorem get_unbroken (l : MerkleList) (i : Nat) : Result.Unbroken (l.get i) :=
  (l.checkIndex_unbroken i).bind fun _ => l.view.get_unbroken i

theorem set_unbroken (l : MerkleList) (i : Nat) (n : Node) : TreeM.Unbroken (l.set i n) := by
  unfold set
  refine .bind (.result (l.checkIndex_unbroken i)) fun _ => ?_
  exact .bind (l.view.set_unbroken i n) fun view => .pure _

theorem pop_unbroken (l : MerkleList) : TreeM.Unbroken l.pop := by
  unfold pop
  split
  · refine .throw_bind ?_
    exact nofun
  · refine .bind (.result (Gindex.ofPosition_unbroken _ _)) fun g => ?_
    refine .bind (.result (l.backing.get_unbroken g)) fun popped => ?_
    refine .bind (.result (l.backing.graftAt_unbroken g)) fun graft => ?_
    refine .bind (.result (Hasher.zeroLeaf_unbroken (Nat.zero_le _))) fun zero => ?_
    refine .bind (.lift _) fun cleared => ?_
    exact .bind (withLength_unbroken cleared _) fun backing => .pure _

/-- A full list refuses another element, if the length it would have is a word. -/
theorem append_full (full : l.limit ≤ l.length) (n : Node) :
    l.append n = throw (if l.length + 1 < Word.bound then .overCapacity (l.length + 1) l.limit
      else .breach .overflow) := by
  simp only [append, if_pos full, Word.next]
  split
  · rw [liftM_ok, pure_bind, throw_bind_eq]
  · rw [liftM_error, throw_bind_eq]

theorem append_unbroken (fits : l.length + 1 < Word.bound) (n : Node) : TreeM.Unbroken (l.append n) := by
  by_cases full : l.limit ≤ l.length
  · rw [append_full full, if_pos fits]
    exact .throw nofun
  · rw [append, if_neg full]
    refine .bind (.result (Gindex.ofPosition_unbroken _ _)) fun g => ?_
    refine .bind (.result (l.backing.graftInto_unbroken g)) fun graft => ?_
    refine .bind (.lift _) fun grown => ?_
    exact .bind (withLength_unbroken grown _) fun backing => .pure _

end MerkleList

/-- The limits asked for are words. -/
def ListRequest.InWords : ListRequest → Prop
  | create limit => limit < Word.bound
  | _ => True

namespace Lists

variable {h : Hasher} {c : Lists}

/-- The lists that a program can come to: created, opened from any tree, and asked anything, each under
any hasher and with any store. -/
inductive Reached : Lists → Prop
  | start (s : Store) : Reached ⟨s, []⟩
  | elsewhere {c : Lists} (s : Store) : Reached c → Reached ⟨s, c.lists⟩
  | opened {c : Lists} {h : Hasher} {backing limit l} : Reached c → limit < Word.bound →
      MerkleList.ofBacking h backing limit = .ok l → Reached ⟨c.store, c.lists ++ [l]⟩
  | request {c : Lists} (h : Hasher) (req : ListRequest) : Reached c → req.InWords → Reached (c.serve h req).2

/-! ## One request -/

section Ask

variable {x : MerkleList → TreeM (ListReply × MerkleList)}

theorem ask_bounded (hc : ∀ l ∈ c.lists, l.Bounded) (list : Nat)
    (hx : ∀ l, l.Bounded → Yields (x l) fun out => out.2.Bounded) :
    ∀ l ∈ (c.ask list x).2.lists, l.Bounded := by
  unfold ask
  split
  · exact hc
  · rename_i l hl
    split
    · rename_i hrun
      intro m hm
      rcases List.mem_or_eq_of_mem_set hm with hm | rfl
      · exact hc m hm
      · exact (hx l (hc l (List.mem_of_getElem? hl))).of_run hrun
    · exact hc

theorem ask_unbroken (list : Nat) (hx : ∀ l, c.lists[list]? = some l → TreeM.Unbroken (x l))
    (cause : Breach) : (c.ask list x).1 ≠ .refused (.breach cause) := by
  unfold ask
  split
  · nofun
  · rename_i l hl
    have sound := TreeM.Unbroken.iff_run.1 (hx l hl) c.store cause
    split
    · nofun
    · rename_i hrun
      rw [hrun] at sound
      exact fun e => sound (congrArg Except.error (ListAnswer.refused.inj e))

end Ask

/-- A request leaves every list within its bounds. -/
theorem serve_bounded (hc : ∀ l ∈ c.lists, l.Bounded) {req : ListRequest} (words : req.InWords) :
    ∀ l ∈ (c.serve h req).2.lists, l.Bounded := by
  cases req with
  | create limit =>
    simp only [serve]
    split
    · rename_i hrun
      have created := (MerkleList.empty_yields words).of_run hrun
      exact List.forall_mem_append.2 ⟨hc, List.forall_mem_singleton.2 created⟩
    · exact hc
  | clone list =>
    simp only [serve]
    split
    · exact hc
    · rename_i l hl
      have cloned := hc l (List.mem_of_getElem? hl)
      exact List.forall_mem_append.2 ⟨hc, List.forall_mem_singleton.2 cloned⟩
  | append list n =>
    exact ask_bounded hc list fun l hl => .bind (hl.append_yields n) fun _ hl' => .pure hl'
  | pop list => exact ask_bounded hc list fun l hl => .bind hl.pop_yields fun _ hl' => .pure hl'
  | get list i => exact ask_bounded hc list fun l hl => .after fun _ => .pure hl
  | set list i n =>
    exact ask_bounded hc list fun l hl => .bind (hl.set_yields i n) fun _ hl' => .pure hl'
  | length list => exact ask_bounded hc list fun l hl => .pure hl
  | root list => exact ask_bounded hc list fun l hl => .after fun _ => .pure hl

/-- A full list refuses to be appended to, and nothing changes. -/
theorem serve_append_full {list : Nat} {l : MerkleList} (hl : c.lists[list]? = some l)
    (full : l.limit ≤ l.length) (n : Node) :
    c.serve h (.append list n) =
      (.refused (if l.length + 1 < Word.bound then .overCapacity (l.length + 1) l.limit
        else .breach .overflow), c) := by
  simp only [serve, ask, hl, MerkleList.append_full full, throw_bind_eq]
  rfl

/-- The one request that ends in a breach asks a list of the greatest length for more. -/
theorem serve_breach (hc : ∀ l ∈ c.lists, l.Bounded) {req : ListRequest} (words : req.InWords)
    {cause : Breach} (e : (c.serve h req).1 = .refused (.breach cause)) :
    cause = .overflow ∧ ∃ list n l, req = .append list n ∧ c.lists[list]? = some l ∧
      l.length = l.limit ∧ l.limit = Word.bound - 1 := by
  cases req with
  | create limit =>
    have sound := TreeM.Unbroken.iff_run.1 (MerkleList.empty_unbroken (h := h) words) c.store cause
    simp only [serve] at e
    split at e
    · cases e
    · rename_i hrun
      rw [hrun] at sound
      exact absurd (congrArg Except.error (ListAnswer.refused.inj e)) sound
  | clone list =>
    simp only [serve] at e
    split at e <;> cases e
  | append list n =>
    by_cases longest : ∃ l, c.lists[list]? = some l ∧ Word.bound ≤ l.length + 1
    · obtain ⟨l, hl, last⟩ := longest
      obtain ⟨limit_lt, length_le, -⟩ := hc l (List.mem_of_getElem? hl)
      rw [serve_append_full hl (by omega), if_neg (Nat.not_lt.2 last)] at e
      cases e
      exact ⟨rfl, list, n, l, rfl, hl, by omega, by omega⟩
    · refine absurd e (ask_unbroken list (fun l hl => ?_) cause)
      have fits : l.length + 1 < Word.bound := Nat.not_le.1 fun last => longest ⟨l, hl, last⟩
      exact .bind (MerkleList.append_unbroken fits n) fun _ => .pure _
  | pop list =>
    exact absurd e (ask_unbroken list (fun l _ => .bind l.pop_unbroken fun _ => .pure _) cause)
  | get list i =>
    exact absurd e (ask_unbroken list (fun l _ => .bind (.result (l.get_unbroken i)) fun _ => .pure _) cause)
  | set list i n =>
    exact absurd e (ask_unbroken list (fun l _ => .bind (l.set_unbroken i n) fun _ => .pure _) cause)
  | length list => exact absurd e (ask_unbroken list (fun _ _ => .pure _) cause)
  | root list =>
    exact absurd e (ask_unbroken list (fun _ _ => .bind (.lift _) fun _ => .pure _) cause)

/-! ## Whole runs -/

theorem Reached.bounded (run : Reached c) : ∀ l ∈ c.lists, l.Bounded := by
  -- by induction on the run: a list is within its bounds when it comes to be, and no request leads out
  induction run with
  | start s => nofun
  | elsewhere s _ ih => exact ih
  | opened _ hl e ih =>
    have opened := MerkleList.bounded_of_ofBacking hl e
    exact List.forall_mem_append.2 ⟨ih, List.forall_mem_singleton.2 opened⟩
  | request h req _ words ih => exact serve_bounded ih words

/-- Whatever lists a program has come to, their lengths and limits are words, the lengths keep to the
limits, and no place in their trees is below depth 65. What is asked of them ends in an answer or in a
failure that a caller is told, unless a list of the greatest length there is, under that limit, is to
be appended to. A full list refuses another element, with the length that it would have, and with it
the store and all lists stay as they are; where that length is no word, there is a breach instead. -/
theorem Reached.serves_in_words (run : Reached c) :
    (∀ l ∈ c.lists, l.length ≤ l.limit ∧ l.limit < Word.bound ∧ l.view.depth ≤ 65) ∧
    (∀ (h : Hasher) (req : ListRequest) (cause : Breach), req.InWords →
      (c.serve h req).1 = .refused (.breach cause) →
        cause = .overflow ∧ ∃ list n l, req = .append list n ∧ c.lists[list]? = some l ∧
          l.length = l.limit ∧ l.limit = Word.bound - 1) ∧
    (∀ (h : Hasher) (list : Nat) (n : Node) (l : MerkleList), c.lists[list]? = some l →
      l.limit ≤ l.length →
        (l.length + 1 < Word.bound → l.limit < l.length + 1 ∧
          c.serve h (.append list n) = (.refused (.overCapacity (l.length + 1) l.limit), c)) ∧
        (l.length + 1 = Word.bound →
          c.serve h (.append list n) = (.refused (.breach .overflow), c))) := by
  refine ⟨fun l hl => ?_, fun h req cause words e => serve_breach run.bounded words e, ?_⟩
  · obtain ⟨limit_lt, length_le, depth_eq⟩ := run.bounded l hl
    have := Word.depthFor_le_64 limit_lt
    exact ⟨length_le, limit_lt, by omega⟩
  · intro h list n l hl full
    obtain ⟨-, length_le, -⟩ := run.bounded l (List.mem_of_getElem? hl)
    rw [serve_append_full hl full]
    constructor
    · intro fits
      rw [if_pos fits]
      exact ⟨by omega, rfl⟩
    · intro last
      rw [if_neg (by omega)]

/-- A tree without content whose chunk writes a length. -/
def bare (length : Nat) : Node :=
  .pair 1 (.leaf (.made 0) .zero) (.leaf (.made 0) (Chunk.ofLength length))

/-- The list that is opened from it, as long as its limit. -/
theorem reached_full (h : Hasher) (s : Store) {limit : Nat} (hl : limit < Word.bound) :
    Reached ⟨s, [⟨h, ⟨bare limit, Word.depthFor limit + 1⟩, limit, limit⟩]⟩ := by
  have opened : MerkleList.ofBacking h (bare limit) limit =
      .ok ⟨h, ⟨bare limit, Word.depthFor limit + 1⟩, limit, limit⟩ := by
    rw [bare, MerkleList.ofBacking_of_leaf rfl, Chunk.value_ofLength hl, Nat.mod_eq_of_lt hl,
      if_neg (Nat.lt_irrefl _)]
  exact .opened (.start s) hl opened

/-- The longest list but one has a word to say how long it would grow. -/
theorem serves_in_words_below_longest : ∃ c l, Reached c ∧ c.lists = [l] ∧
    l.length = Word.bound - 2 ∧ l.limit = Word.bound - 2 ∧
    c.serve .sha256 (.append 0 (Hasher.sha256.standIn 0)) =
      (.refused (.overCapacity (Word.bound - 1) (Word.bound - 2)), c) := by
  have run := reached_full .sha256 .empty (show Word.bound - 2 < Word.bound by decide)
  obtain ⟨-, -, full⟩ := run.serves_in_words
  exact ⟨_, _, run, rfl, rfl, rfl, ((full .sha256 0 _ _ rfl le_rfl).1 (by decide)).2⟩

/-- The longest list has none. -/
theorem not_always_overCapacity :
    ¬ ∀ c, Reached c →
      (∀ (h : Hasher) (req : ListRequest) (cause : Breach), req.InWords →
        (c.serve h req).1 ≠ .refused (.breach cause)) ∧
      ∀ (h : Hasher) (list : Nat) (n : Node) (l : MerkleList), c.lists[list]? = some l →
        l.limit ≤ l.length → l.limit < l.length + 1 ∧
          c.serve h (.append list n) = (.refused (.overCapacity (l.length + 1) l.limit), c) := by
  intro always
  have run := reached_full .sha256 .empty (show Word.bound - 1 < Word.bound by decide)
  obtain ⟨unbroken, -⟩ := always _ run
  refine unbroken .sha256 (.append 0 (Hasher.sha256.standIn 0)) .overflow trivial ?_
  rw [serve_append_full rfl le_rfl, if_neg (by decide)]

end Lists

end SszMerkle
