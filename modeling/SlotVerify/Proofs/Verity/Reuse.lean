import SlotVerify.Proofs.Verity.Updating
/-
  One writer for one partition after the other.

  A writer is called any number of times, in any order: partitions are begun, with layouts that are
  accepted or not, given up, and finalized, with success or not.  What such calls come to is kept in
  a ledger (`Ledger`): the partition underway with the data taken of it, and the trees built so far,
  the last one first.  The ledger is told from the calls, and from how much memory there is for a
  tree.

  1. One call: a writer that stands at a ledger stands, after the call, at the ledger with the call
     entered (`Writer.StandsAt.call`).  Of all calls only finalizing with a tree sets the root
     digest, also when it fails afterwards because there is no memory for the error correction.

  2. Any number of calls, by induction (`standsAt_after`).  So the digest that is reported is always
     that of the last tree built.

  3. That tree is the one of the last finalization exactly if this one built a tree, or if no tree
     has been built at all.  A partition without a tree after one with a tree is the exception.

  Main result: `digest_of_finalized`.
-/

namespace SlotVerify.Verity

open Device (memoryLimit)

/-- A call on a writer. -/
inductive Call where
  | init (l : Layout)
  | update (offset : Nat) (data : ByteArray)
  | finalize

/-- What calls on a writer come to. -/
structure Ledger where
  /-- The partition underway, with the data taken of it. -/
  partition : Option (Layout × ByteArray)
  /-- The trees built, the last one first. -/
  trees : List HashTree.Tree

namespace Ledger

/-- No call yet. -/
def empty : Ledger := ⟨none, []⟩

/-- Begins a partition; a layout that is not accepted ends the partition underway as well. -/
def init (memory : Nat) (ledger : Ledger) (l : Layout) : Ledger :=
  match Session.new l memory with
  | .ok _ => { ledger with partition := some (l, ByteArray.empty) }
  | .error _ => { ledger with partition := none }

/-- Adds to the data of the partition underway, where it is taken. -/
def update (ledger : Ledger) (offset : Nat) (data : ByteArray) : Ledger :=
  { ledger with
    partition := ledger.partition.map fun (l, contents) => (l, takeNext contents (offset, data)) }

/-- Ends the partition underway; its tree is built if there is one and its data is complete. -/
def finalize (ledger : Ledger) : Ledger :=
  match ledger.partition with
  | none => ledger
  | some (l, contents) => ⟨none, (l.tree? contents).toList ++ ledger.trees⟩

/-- Enters a call. -/
def enter (memory : Nat) (ledger : Ledger) : Call → Ledger
  | .init l => ledger.init memory l
  | .update offset data => ledger.update offset data
  | .finalize => ledger.finalize

/-- The ledger of a sequence of calls. -/
def of (memory : Nat) (calls : List Call) : Ledger := calls.foldl (enter memory) empty

/-- The root digest of the last tree built. -/
def lastRootDigest (ledger : Ledger) : Option ByteArray := ledger.trees.head?.map (·.rootDigest)

end Ledger

namespace Writer

variable {w : Writer} {memory : Nat} {ledger : Ledger} {l : Layout} {contents : ByteArray}

/-- What a call leaves of a writer. -/
def call (w : Writer) : Call → Writer
  | .init l => (w.init l).1
  | .update offset data => (w.update offset data).1
  | .finalize => w.finalize.1

/-- The writer after a sequence of calls. -/
def after (memory : Nat) (calls : List Call) : Writer := calls.foldl call (fresh memory)

theorem after_concat (memory : Nat) (calls : List Call) (c : Call) :
    after memory (calls ++ [c]) = (after memory calls).call c := by
  unfold after
  rw [List.foldl_append]
  rfl

@[simp] theorem memory_call (w : Writer) (c : Call) : (w.call c).memory = w.memory := by
  cases c with
  | init l => exact w.memory_init l
  | update offset data => exact w.memory_update offset data
  | finalize => exact w.memory_finalize

/-! ## One call -/

/-- The writer is as the ledger says. -/
structure StandsAt (w : Writer) (ledger : Ledger) : Prop where
  idle : ledger.partition = none → w.session = none
  underway : ∀ l contents, ledger.partition = some (l, contents) → w.Streams l contents
  digest : w.lastRootDigest = ledger.lastRootDigest

theorem standsAt_fresh (memory : Nat) : (fresh memory).StandsAt .empty :=
  ⟨fun _ => rfl, nofun, rfl⟩

theorem StandsAt.init (h : w.StandsAt ledger) (l : Layout) :
    (w.init l).1.StandsAt (ledger.init w.memory l) := by
  have hstreams := streams_init (w := w) (l := l)
  unfold Writer.init at hstreams ⊢
  unfold Ledger.init
  cases hnew : Session.new l w.memory with
  | ok s =>
    rw [hnew] at hstreams
    refine ⟨nofun, ?_, h.digest⟩
    rintro _ _ ⟨⟩
    exact hstreams rfl
  | error f => exact ⟨fun _ => rfl, nofun, h.digest⟩

theorem StandsAt.update (h : w.StandsAt ledger) (offset : Nat) (data : ByteArray) :
    (w.update offset data).1.StandsAt (ledger.update offset data) := by
  have hdigest : (w.update offset data).1.lastRootDigest = w.lastRootDigest := by
    unfold Writer.update
    cases w.session with
    | none => rfl
    | some s => rfl
  unfold Ledger.update
  cases hpartition : ledger.partition with
  | none =>
    have hidle := uninitialized_of_session (h.idle hpartition)
    rw [hidle.update]
    exact ⟨fun _ => hidle.session, nofun, h.digest⟩
  | some partition =>
    obtain ⟨l, contents⟩ := partition
    refine ⟨nofun, ?_, hdigest.trans h.digest⟩
    rintro _ _ ⟨⟩
    exact (h.underway l contents hpartition).takeNext (offset, data)

/-- Finalizing builds the tree of the data taken, if it is complete, and reports its digest from
    then on. -/
theorem Streams.lastRootDigest_finalize (h : w.Streams l contents) :
    w.finalize.1.lastRootDigest =
      ((l.tree? contents).map (·.rootDigest)).or w.lastRootDigest := by
  obtain ⟨fec, -, hfinal⟩ := h.finalize_eq
  rw [hfinal]
  split
  · rename_i hmissing
    rw [h.tree?_eq_none_iff.mpr (Or.inr hmissing.2)]
    rfl
  · rfl

theorem StandsAt.finalize (h : w.StandsAt ledger) :
    w.finalize.1.StandsAt ledger.finalize := by
  unfold Ledger.finalize
  cases hpartition : ledger.partition with
  | none =>
    have hidle := uninitialized_of_session (h.idle hpartition)
    rw [hidle.finalize]
    exact h
  | some partition =>
    obtain ⟨l, contents⟩ := partition
    refine ⟨fun _ => session_finalize w, nofun, ?_⟩
    rw [(h.underway l contents hpartition).lastRootDigest_finalize, h.digest]
    unfold Ledger.lastRootDigest
    dsimp only
    cases l.tree? contents with
    | none => rfl
    | some tree => rfl

theorem StandsAt.call (h : w.StandsAt ledger) (c : Call) :
    (w.call c).StandsAt (ledger.enter w.memory c) := by
  cases c with
  | init l => exact h.init l
  | update offset data => exact h.update offset data
  | finalize => exact h.finalize

/-! ## Any calls -/

theorem StandsAt.calls (calls : List Call) : ∀ {w : Writer} {ledger : Ledger}, w.StandsAt ledger →
    (calls.foldl Writer.call w).StandsAt (calls.foldl (Ledger.enter w.memory) ledger) := by
  -- by induction on the calls, from whatever writer and ledger the first of them is made
  induction calls with
  | nil =>
    intro w ledger h
    exact h
  | cons c rest ih =>
    intro w ledger h
    have hrest := ih (h.call c)
    rwa [memory_call] at hrest

theorem standsAt_after (memory : Nat) (calls : List Call) :
    (after memory calls).StandsAt (.of memory calls) :=
  (standsAt_fresh memory).calls calls

/-- There is a partition to be finalized where finalizing succeeds, and its data is complete. -/
theorem StandsAt.of_finalize (h : w.StandsAt ledger) {f : Finalization}
    (hfinal : w.finalize.2 = .ok f) : ∃ l contents, ledger.partition = some (l, contents) ∧
      f.tree = (l.tree? contents).map (fun tree => (l.hashTreeOffset, tree.bytes)) ∧
      (l.tree? contents = none ↔ l.hashTreeSize = 0) := by
  cases hpartition : ledger.partition with
  | none =>
    rw [(uninitialized_of_session (h.idle hpartition)).finalize] at hfinal
    cases hfinal
  | some partition =>
    obtain ⟨l, contents⟩ := partition
    have hstreams := h.underway l contents hpartition
    rcases hstreams.finalize_cases with ⟨-, herror⟩ | ⟨hcomplete, ⟨herror, -⟩ | ⟨fec, hok⟩⟩
    · rw [herror] at hfinal
      cases hfinal
    · rw [herror] at hfinal
      cases hfinal
    · rw [hok] at hfinal
      cases hfinal
      refine ⟨l, contents, rfl, rfl, ?_⟩
      rw [hstreams.tree?_eq_none_iff]
      omega

/-- After any calls and a finalization that succeeds: it hands out the tree of the partition
    underway, if its layout has one, and the digest reported then is that of this tree; without a
    tree the digest reported stays that of the last tree built.  So the digest is the finalization's
    own, and none if it has no tree, exactly if there is a tree or none has been built before. -/
theorem digest_of_finalized {calls : List Call} {f : Finalization}
    (hfinal : (after memory calls).finalize.2 = .ok f) :
    ∃ l contents, (Ledger.of memory calls).partition = some (l, contents) ∧
      f.tree = (l.tree? contents).map (fun tree => (l.hashTreeOffset, tree.bytes)) ∧
      (l.tree? contents = none ↔ l.hashTreeSize = 0) ∧
      (∀ tree, l.tree? contents = some tree → l.TreeOver (l.treeData contents) tree ∧
        (after memory (calls ++ [.finalize])).lastRootDigest = some tree.rootDigest) ∧
      (l.hashTreeSize = 0 →
        (after memory (calls ++ [.finalize])).lastRootDigest =
          (Ledger.of memory calls).lastRootDigest) ∧
      ((after memory (calls ++ [.finalize])).lastRootDigest =
          (l.tree? contents).map (·.rootDigest) ↔
        l.hashTreeSize ≠ 0 ∨ (Ledger.of memory calls).trees = []) := by
  have hstands := standsAt_after memory calls
  obtain ⟨l, contents, hpartition, htree, hnone⟩ := hstands.of_finalize hfinal
  have hstreams := hstands.underway l contents hpartition
  have hdigest : (after memory (calls ++ [.finalize])).lastRootDigest =
      ((l.tree? contents).map (·.rootDigest)).or (Ledger.of memory calls).lastRootDigest := by
    rw [after_concat, ← hstands.digest]
    exact hstreams.lastRootDigest_finalize
  refine ⟨l, contents, hpartition, htree, hnone, ?_, ?_, ?_⟩
  · intro tree hbuilt
    refine ⟨hstreams.treeOver hbuilt, ?_⟩
    rw [hdigest, hbuilt]
    rfl
  · intro hzero
    rw [hdigest, hnone.mpr hzero]
    rfl
  · rw [hdigest]
    cases hbuilt : l.tree? contents with
    | none =>
      rw [hbuilt] at hnone
      -- only an earlier tree can have left a digest
      have hzero : l.hashTreeSize = 0 := hnone.mp rfl
      rw [or_iff_right (not_not_intro hzero)]
      unfold Ledger.lastRootDigest
      cases (Ledger.of memory calls).trees with
      | nil => exact iff_of_true rfl rfl
      | cons tree earlier => exact iff_of_false nofun nofun
    | some tree =>
      rw [hbuilt] at hnone
      exact iff_of_true rfl (Or.inl fun hzero => nomatch hnone.mpr hzero)

/-- A block of data with its tree in the next one, and no error correction. -/
def treeLayout : Layout :=
  { blockLayout with fecDataSize := 0, fecSize := 0, fecRoots := 0 }

/-- The same without a tree. -/
def plainLayout : Layout :=
  { treeLayout with hashTreeSize := 0 }

/-- A partition with a tree, and one without that is not finalized yet. -/
def staleCalls : List Call :=
  [.init treeLayout, .update 0 (Bytes.zeros 64), .finalize, .init plainLayout]

/-- Another partition with a tree, after the one without. -/
def reusedCalls : List Call :=
  staleCalls ++ [.finalize, .init treeLayout, .update 0 ⟨.replicate 64 255⟩]

/-- The digest of the last tree is reported, and it is the second one. -/
theorem digest_of_finalized_reused : ∃ (f : Finalization) (tree : HashTree.Tree),
    (after memoryLimit reusedCalls).finalize.2 = .ok f ∧ f.tree = some (64, tree.bytes) ∧
    (Ledger.of memoryLimit reusedCalls).trees.length = 1 ∧
    (after memoryLimit (reusedCalls ++ [.finalize])).lastRootDigest = some tree.rootDigest := by
  have hhanded : (after memoryLimit reusedCalls).finalize.2.toOption.map (·.tree.map (·.1)) =
      some (some 64) := by
    decide +kernel
  cases hfinal : (after memoryLimit reusedCalls).finalize.2 with
  | error e =>
    rw [hfinal] at hhanded
    cases hhanded
  | ok f =>
    obtain ⟨l, contents, -, htree, -, hown, -, -⟩ := digest_of_finalized hfinal
    rw [hfinal] at hhanded
    have hoffset : f.tree.map (·.1) = some 64 := Option.some.inj hhanded
    rw [htree] at hoffset
    cases hbuilt : l.tree? contents with
    | none =>
      rw [hbuilt] at hoffset
      cases hoffset
    | some tree =>
      rw [hbuilt] at htree hoffset
      have hplace : l.hashTreeOffset = 64 := Option.some.inj hoffset
      refine ⟨f, tree, rfl, ?_, by decide +kernel, (hown tree hbuilt).2⟩
      rw [htree, ← hplace]
      rfl

/-- The second partition has no tree, and the digest of the first one is reported after it. -/
theorem stale_digest : ∃ f, (after memoryLimit staleCalls).finalize.2 = .ok f ∧ f.tree = none ∧
    (after memoryLimit (staleCalls ++ [.finalize])).lastRootDigest =
      (after memoryLimit (staleCalls.take 3)).lastRootDigest ∧
    (after memoryLimit (staleCalls ++ [.finalize])).lastRootDigest ≠ none := by
  have hhanded : (after memoryLimit staleCalls).finalize.2.toOption.map (·.tree.isNone) =
      some true := by
    decide +kernel
  have hreported :
      (after memoryLimit (staleCalls ++ [.finalize])).lastRootDigest.isSome = true := by
    decide +kernel
  cases hfinal : (after memoryLimit staleCalls).finalize.2 with
  | error e =>
    rw [hfinal] at hhanded
    cases hhanded
  | ok f =>
    rw [hfinal] at hhanded
    refine ⟨f, rfl, Option.isNone_iff_eq_none.mp (Option.some.inj hhanded), rfl, ?_⟩
    exact Option.isSome_iff_ne_none.mp hreported

end Writer

end SlotVerify.Verity
