import GomokuCli.Library.Interleaving
import GomokuCli.Library.Resequencing

/-!
# Sequential writers

Games finish in any order, and their records are written in the order of the
games: a record that comes too early waits in a buffer.  A push is atomic under
the mutex of the writer, so that any interleaving of the workers is a list of
pushes.
-/

namespace GomokuCli

open Interleaving Resequencing

/-- `SeqStr`, a record with its place in the file. -/
structure SeqStr where
  idx : Nat
  str : List Char
  deriving DecidableEq, Repr

/-- What `fputs` writes of a record: a C string ends at its first `NUL`. -/
def SeqStr.text (r : SeqStr) : List Char := r.str.takeWhile (· ≠ Char.ofNat 0)

theorem SeqStr.text_of_notMem {r : SeqStr} (h : Char.ofNat 0 ∉ r.str) : r.text = r.str := by
  rw [SeqStr.text, ← List.append_nil r.str, List.takeWhile_append_of_pos]
  · rfl
  · intro c hc
    exact decide_eq_true fun heq => h (heq ▸ hc)

/-- `SeqWriter`.  The file is kept as the list of the records written to it, so that their
places can be compared with their indices. -/
structure SeqWriter where
  buf : List SeqStr
  /-- the file, as the records that `fputs` was called with -/
  out : List SeqStr
  idxNext : Nat
  deriving DecidableEq, Repr

namespace SeqWriter

/-- `SeqWriter::SeqWriter` -/
def new : SeqWriter where
  buf := []
  out := []
  idxNext := 0

/-- What has been written to the file. -/
def content (w : SeqWriter) : List Char := w.out.flatMap SeqStr.text

/-- `write_to_i` -/
def writeTo (i : Nat) (w : SeqWriter) : SeqWriter where
  buf := w.buf.drop i
  out := w.out ++ w.buf.take i
  idxNext := w.idxNext + i

/-- The loop of `push`: the length of the longest sequential chunk at the front of the
buffer, or nothing where the assertion at the first gap fails.  It fails if a record comes
that should have been written already. -/
def sequentialChunk : List SeqStr → Nat → Option Nat
  | [], _ => some 0
  | r :: buf, next =>
      if r.idx ≠ next then
        if next < r.idx then some 0 else none
      else (sequentialChunk buf (next + 1)).map (· + 1)

/-- `push` -/
def push (item : SeqStr) (w : SeqWriter) : Option SeqWriter :=
  let w' := { w with buf := insertSorted SeqStr.idx w.buf item }
  (sequentialChunk w'.buf w'.idxNext).map fun i => if i ≠ 0 then w'.writeTo i else w'

/-- `SeqWriter::~SeqWriter` -/
def close (w : SeqWriter) : SeqWriter := w.writeTo w.buf.length

variable {w : SeqWriter} {r : SeqStr} {items buf : List SeqStr} {next : Nat}

/-! ## The invariant -/

/-- Writing nothing changes nothing. -/
theorem writeTo_zero (w : SeqWriter) : w.writeTo 0 = w := by
  rw [writeTo, List.drop_zero, List.take_zero, List.append_nil, Nat.add_zero]

/-- The assertion holds in a buffer that is in order. -/
theorem sequentialChunk_eq (h : InOrder SeqStr.idx buf) (hnext : ∀ r ∈ buf, next ≤ r.idx) :
    sequentialChunk buf next = some (chunk SeqStr.idx next buf) := by
  induction buf generalizing next with
  | nil => rfl
  | cons r buf ih =>
      obtain ⟨hr, hbuf⟩ := List.pairwise_cons.mp h
      by_cases hidx : r.idx = next
      · rw [sequentialChunk, chunk, if_neg (not_not.mpr hidx), if_pos hidx,
          ih hbuf fun x hx => hidx ▸ hr x hx]
        rfl
      · have hgap : next < r.idx := lt_of_le_of_ne (hnext r (.head buf)) (Ne.symm hidx)
        rw [sequentialChunk, chunk, if_pos hidx, if_pos hgap, if_neg hidx]

/-- **The invariant of the writer** after the pushes of `items`: the file has the records
before the first gap, and the buffer the others in order. -/
structure Holds (items : List SeqStr) (w : SeqWriter) : Prop where
  resequenced : Resequenced SeqStr.idx items w.out w.buf
  idxNext : w.idxNext = w.out.length

theorem Holds.new : Holds [] SeqWriter.new := ⟨.nil, rfl⟩

/-- **One push** succeeds if its index is new, and the writer holds one record more. -/
theorem Holds.push (h : Holds items w) (hnew : r.idx ∉ items.map SeqStr.idx) :
    ∃ w', w.push r = some w' ∧ Holds (items ++ [r]) w' := by
  have hlate : ∀ x ∈ insertSorted SeqStr.idx w.buf r, w.idxNext ≤ x.idx := by
    rw [h.idxNext]
    exact h.resequenced.le_of_mem_insertSorted hnew
  have hchunk := sequentialChunk_eq (h.resequenced.inOrder_insertSorted hnew) hlate
  have hpush : w.push r = some (writeTo
      (chunk SeqStr.idx w.idxNext (insertSorted SeqStr.idx w.buf r))
      { w with buf := insertSorted SeqStr.idx w.buf r }) := by
    simp only [SeqWriter.push, hchunk, Option.map_some, Option.some.injEq]
    split
    case isTrue => rfl
    case isFalse hzero => rw [not_not.mp hzero, writeTo_zero]
  refine ⟨_, hpush, ?_, ?_⟩
  · have harrive := h.resequenced.arrive hnew
    rw [← h.idxNext] at harrive
    exact harrive
  · have hlength := congrArg List.length
      (map_take_chunk SeqStr.idx w.idxNext (insertSorted SeqStr.idx w.buf r))
    rw [List.length_map, List.length_range'] at hlength
    change w.idxNext + _ = (w.out ++ _).length
    rw [List.length_append, hlength, h.idxNext]

/-- **Every sequence of pushes** with distinct indices succeeds.  By induction on the
pushes. -/
theorem exists_runs_push (hdistinct : (items.map SeqStr.idx).Nodup) :
    ∃ w, runs push items new = some w ∧ Holds items w := by
  induction items using List.reverseRecOn with
  | nil => exact ⟨new, rfl, .new⟩
  | append_singleton items r ih =>
      rw [List.map_append, List.nodup_append'] at hdistinct
      obtain ⟨hitems, -, hdisjoint⟩ := hdistinct
      obtain ⟨w, hruns, hholds⟩ := ih hitems
      have hnew : r.idx ∉ items.map SeqStr.idx := fun hmem => hdisjoint hmem (.head _)
      obtain ⟨w', hpush, hholds'⟩ := hholds.push hnew
      exact ⟨w', (runs_snoc_of hruns).trans hpush, hholds'⟩

/-! ## The file -/

/-- The records in the order of their indices. -/
def inOrder (items : List SeqStr) : List SeqStr := items.mergeSort fun x y => x.idx ≤ y.idx

theorem inOrder_perm (items : List SeqStr) : (inOrder items).Perm items :=
  List.mergeSort_perm items _

theorem inOrder_inOrder (hdistinct : (items.map SeqStr.idx).Nodup) :
    InOrder SeqStr.idx (inOrder items) := by
  have hle : (inOrder items).Pairwise fun x y => x.idx ≤ y.idx := by
    refine (List.pairwise_mergeSort ?_ ?_ items).imp fun h => of_decide_eq_true h
    · intro x y z hxy hyz
      exact decide_eq_true ((of_decide_eq_true hxy).trans (of_decide_eq_true hyz))
    · intro x y
      rcases Nat.le_total x.idx y.idx with h | h <;> simp [h]
  have hne : ((inOrder items).map SeqStr.idx).Nodup :=
    ((inOrder_perm items).map SeqStr.idx).nodup_iff.mpr hdistinct
  refine hle.imp₂ (fun x y hxy hne => lt_of_le_of_ne hxy hne) ?_
  exact List.pairwise_map.mp hne

/-- **What a writer has done after some pushes.**  `idxNext` is the least index that
was not pushed. -/
structure Sequenced (items : List SeqStr) (w : SeqWriter) : Prop where
  missing : w.idxNext ∉ items.map SeqStr.idx
  pushed : ∀ i < w.idxNext, i ∈ items.map SeqStr.idx
  written : w.content = ((inOrder items).take w.idxNext).flatMap SeqStr.text
  indices : ((inOrder items).take w.idxNext).map SeqStr.idx = List.range w.idxNext
  buffered : w.buf = (inOrder items).drop w.idxNext
  closed : w.close.content = (inOrder items).flatMap SeqStr.text

theorem Holds.sequenced (h : Holds items w) (hdistinct : (items.map SeqStr.idx).Nodup) :
    Sequenced items w := by
  have hall : inOrder items = w.out ++ w.buf :=
    (inOrder_inOrder hdistinct).eq_of_perm h.resequenced.all_inOrder
      ((inOrder_perm items).trans h.resequenced.perm.symm)
  refine ⟨?_, ?_, ?_, ?_, ?_, ?_⟩
  · rw [h.idxNext]
    exact h.resequenced.missing
  · intro i hi
    rw [h.idxNext] at hi
    exact h.resequenced.arrived_of_lt hi
  · rw [hall, h.idxNext, List.take_left]
    rfl
  · rw [hall, h.idxNext, List.take_left]
    exact h.resequenced.released
  · rw [hall, h.idxNext, List.drop_left]
  · rw [hall, content, close, writeTo, List.take_length]

/-- **The file is in order.** No assertion fails, the file holds the records before the
first gap, the buffer the others, and the destructor writes those as well.  It does not
matter in which order the records have come. -/
theorem sequenced_of_distinct (items : List SeqStr)
    (hdistinct : (items.map SeqStr.idx).Nodup) :
    ∃ w, runs push items new = some w ∧ Sequenced items w := by
  obtain ⟨w, hruns, hholds⟩ := exists_runs_push hdistinct
  exact ⟨w, hruns, hholds.sequenced hdistinct⟩

/-- The second record comes first, and the fourth is missing. -/
theorem sequenced_of_distinct_late :
    ∃ w, runs push [⟨1, ['b']⟩, ⟨4, ['e']⟩, ⟨0, ['a']⟩, ⟨2, ['c']⟩] new = some w ∧
      w.content = ['a', 'b', 'c'] ∧ w.close.content = ['a', 'b', 'c', 'e'] ∧
      Sequenced [⟨1, ['b']⟩, ⟨4, ['e']⟩, ⟨0, ['a']⟩, ⟨2, ['c']⟩] w := by
  obtain ⟨w, hruns, hsequenced⟩ := sequenced_of_distinct
    [⟨1, ['b']⟩, ⟨4, ['e']⟩, ⟨0, ['a']⟩, ⟨2, ['c']⟩] (by decide)
  have hw : runs push [⟨1, ['b']⟩, ⟨4, ['e']⟩, ⟨0, ['a']⟩, ⟨2, ['c']⟩] new =
      some ⟨[⟨4, ['e']⟩], [⟨0, ['a']⟩, ⟨1, ['b']⟩, ⟨2, ['c']⟩], 3⟩ := by decide
  rw [hw, Option.some.injEq] at hruns
  subst hruns
  exact ⟨_, hw, by decide, by decide, hsequenced⟩

end SeqWriter

end GomokuCli
