import ParchTestbench.Machine.GrowingBuffer
import ParchTestbench.Machine.Utf8

/-!
# The user library: the global allocator

A process has a heap of `HEAP_SIZE` bytes.  Its allocator is not part of the repository: here it
is any function that says which requests are served.  One that is not served ends in
`on_alloc_error`, which panics.

Main results:

- Theorem `stringRequests_push`: what one more character asks for.
- Theorem `push_served` and `push_unserved`: a push, by what the allocator serves.
-/

namespace ParchTestbench

namespace GlobalAllocator

open GrowingBuffer (grow growths le_capacity sizes sizes_front sizes_of_le sizes_of_lt
  getLastD_sizes)

/-- `HEAP_SIZE`. -/
def HEAP_SIZE : Nat := 4096 * 8

/-- The memory allocator: whether it serves the last of some requests, in bytes. -/
abbrev Heap := List Nat → Bool

/-- The smallest capacity that a growing `Vec` takes, for elements of `size` bytes. -/
def minNonZeroCap (size : Nat) : Nat := if size = 1 then 8 else 4

/-- Every one of some requests is served after others. -/
def Served (heap : Heap) : List Nat → List Nat → Prop
  | _, [] => True
  | before, request :: rest =>
      heap (before ++ [request]) = true ∧ Served heap (before ++ [request]) rest

instance Served.decidable (heap : Heap) :
    (before requests : List Nat) → Decidable (Served heap before requests)
  | _, [] => isTrue trivial
  | before, request :: rest =>
      have := decidable heap (before ++ [request]) rest
      inferInstanceAs (Decidable (_ ∧ _))

variable {heap : Heap} {before requests more : List Nat} {n m : Nat}

theorem served_append : Served heap before (requests ++ more) ↔
    Served heap before requests ∧ Served heap (before ++ requests) more := by
  induction requests generalizing before with
  | nil => simp [Served]
  | cons request requests ih => simp [Served, ih, and_assoc]

/-- Requests are served up to one more. -/
theorem served_concat (request : Nat) : Served heap [] (requests ++ [request]) ↔
    Served heap [] requests ∧ heap (requests ++ [request]) = true := by
  simp [served_append, Served]

theorem Served.of_front (h : Served heap [] more) (hfront : requests <+: more) :
    Served heap [] requests := by
  obtain ⟨rest, rfl⟩ := hfront
  exact (served_append.mp h).1

/-- The bytes of a text. -/
def byteLen (text : List Char) : Nat := (Utf8.encode text).length

/-- The requests of a `String` that is pushed to one character at a time, until it has held `n`
bytes. -/
def stringRequests (n : Nat) : List Nat := sizes (minNonZeroCap 1) n

theorem Served.of_le (h : Served heap [] (stringRequests m)) (hle : n ≤ m) :
    Served heap [] (stringRequests n) :=
  h.of_front (sizes_front (by decide) hle)

/-- An allocator for one growing buffer: it serves what fits beside the buffer that is to be
replaced. -/
def heapSpace : Heap := fun requests =>
  (requests.drop (requests.length - 2)).sum ≤ HEAP_SIZE

/-- The allocator has no more room than there is: a buffer and the one that replaces it lie side
by side. -/
def FitsHeap (heap : Heap) : Prop := ∀ requests, heap requests = true → heapSpace requests = true

theorem Served.fits (hfits : FitsHeap heap) (h : Served heap before requests) :
    Served heapSpace before requests := by
  induction requests generalizing before with
  | nil => trivial
  | cons request requests ih => exact ⟨hfits _ h.1, ih h.2⟩

/-- A `String`: its characters, and the requests that it has made for its buffer. -/
structure HeapString where
  chars : List Char
  requests : List Nat

/-- `String::new`. -/
def HeapString.new : HeapString := ⟨[], []⟩

/-- The bytes in the buffer. -/
def HeapString.len (s : HeapString) : Nat := byteLen s.chars

/-- The capacity of the buffer: the last that was asked for. -/
def HeapString.capacity (s : HeapString) : Nat := s.requests.getLastD 0

/-- `String::push`, unless the allocator does not serve a larger buffer. -/
def HeapString.push (heap : Heap) (s : HeapString) (ch : Char) : Option HeapString :=
  let needed := s.len + ch.utf8Size
  if needed ≤ s.capacity then
    some ⟨s.chars ++ [ch], s.requests⟩
  else
    let requests := s.requests ++ [grow (minNonZeroCap 1) s.capacity needed]
    if heap requests then some ⟨s.chars ++ [ch], requests⟩ else none

/-- `String::pop` of a string that is not empty. -/
def HeapString.pop (s : HeapString) : HeapString := ⟨s.chars.dropLast, s.requests⟩

/-- The string that has the text, and has held `n` bytes at most. -/
def HeapString.having (text : List Char) (n : Nat) : HeapString := ⟨text, stringRequests n⟩

/-! ## Pushing -/

open HeapString

variable {text : List Char} {ch : Char}

theorem byteLen_concat (text : List Char) (ch : Char) :
    byteLen (text ++ [ch]) = byteLen text + ch.utf8Size := by
  rw [byteLen, Utf8.encode_append, List.length_append, Utf8.encode_cons, List.length_append,
    String.length_utf8EncodeChar]
  rfl

/-- The next buffer of a string that is to hold `needed` bytes. -/
def nextBuffer (n needed : Nat) : Nat :=
  grow (minNonZeroCap 1) (GrowingBuffer.capacity (minNonZeroCap 1) (growths (minNonZeroCap 1) n))
    needed

theorem capacity_having (text : List Char) (n : Nat) : (having text n).capacity =
    GrowingBuffer.capacity (minNonZeroCap 1) (growths (minNonZeroCap 1) n) :=
  getLastD_sizes _ n

/-- A push as long as there is room. -/
theorem push_of_le (h : byteLen (text ++ [ch]) ≤ (having text n).capacity) :
    (having text n).push heap ch = some ⟨text ++ [ch], stringRequests n⟩ := by
  rw [byteLen_concat] at h
  exact if_pos h

/-- A push beyond the capacity. -/
theorem push_of_lt (h : (having text n).capacity < byteLen (text ++ [ch])) :
    (having text n).push heap ch =
      let requests := stringRequests n ++ [nextBuffer n (byteLen (text ++ [ch]))]
      if heap requests then some ⟨text ++ [ch], requests⟩ else none := by
  rw [byteLen_concat] at h ⊢
  rw [nextBuffer, ← capacity_having text]
  exact if_neg (Nat.not_le_of_lt h)

/-- What a string asks for when it comes to hold one character more. -/
theorem stringRequests_push (hle : byteLen text ≤ n) :
    stringRequests (max n (byteLen (text ++ [ch]))) =
      if byteLen (text ++ [ch]) ≤ (having text n).capacity then stringRequests n
      else stringRequests n ++ [nextBuffer n (byteLen (text ++ [ch]))] := by
  have hsize := ch.utf8Size_le_four
  have hroom := le_capacity (show 0 < minNonZeroCap 1 by decide) n
  have hneeded := byteLen_concat text ch
  rw [capacity_having]
  split
  · exact sizes_of_le (by decide) ‹_›
  · refine sizes_of_lt (by decide) (Nat.lt_of_not_le ‹_›) ?_
    have hfirst : minNonZeroCap 1 = 8 := rfl
    omega

/-- A push that is served. -/
theorem push_served (hle : byteLen text ≤ n)
    (h : Served heap [] (stringRequests (max n (byteLen (text ++ [ch]))))) :
    (having text n).push heap ch =
      some (having (text ++ [ch]) (max n (byteLen (text ++ [ch])))) := by
  unfold having
  rw [stringRequests_push hle] at h ⊢
  split at h
  · rw [if_pos ‹_›]
    exact push_of_le ‹_›
  · rw [if_neg ‹_›]
    exact (push_of_lt (Nat.lt_of_not_le ‹_›)).trans (if_pos ((served_concat _).mp h).2)

/-- A push that is not. -/
theorem push_unserved (hle : byteLen text ≤ n)
    (h : Served heap [] (stringRequests n))
    (hnot : ¬ Served heap [] (stringRequests (max n (byteLen (text ++ [ch]))))) :
    (having text n).push heap ch = none := by
  rw [stringRequests_push hle] at hnot
  split at hnot
  · exact absurd h hnot
  · rw [served_concat, not_and] at hnot
    exact (push_of_lt (Nat.lt_of_not_le ‹_›)).trans (if_neg (hnot h))

end GlobalAllocator

end ParchTestbench
