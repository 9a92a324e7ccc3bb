/-
What a sink makes of the chunks written to it.

A sink that never refuses a call takes every chunk, so all that can happen to it is
said by the list of chunks: `taking`.  A sink that refuses every call from some number
on takes as many chunks as it has calls left.  `pour` writes chunks as a program does
that stops at its first error.  `pour_taken` and `pour_refused` are its two outcomes:
all chunks are taken if none of their calls is refused, and else those in front of the
first call that is.  For a sink that refuses from call `n` on this means that it has
taken exactly the first `n` chunks by the time an error comes back.
-/
import TinyLisp.Output.Sink

namespace TinyLisp.Sink

/-! ### Chunks that are taken -/

/-- No call is ever refused. -/
def NeverRefuses (s : Sink) : Prop := ∀ n, s.refuses n = none

/-- The sink after it has taken some more chunks. -/
def taking (s : Sink) (chunks : List Bytes) : Sink :=
  { s with calls := s.calls + chunks.length, taken := chunks.reverse ++ s.taken }

@[simp] theorem taking_taking (s : Sink) (a b : List Bytes) :
    (s.taking a).taking b = s.taking (a ++ b) := by
  simp [taking, Nat.add_assoc]

@[simp] theorem chunks_taking (s : Sink) (a : List Bytes) :
    (s.taking a).chunks = s.chunks ++ a := by
  simp [taking, chunks]

theorem NeverRefuses.taking {s : Sink} (h : s.NeverRefuses) (a : List Bytes) :
    (s.taking a).NeverRefuses := h

theorem neverRefuses_reliable : reliable.NeverRefuses := fun _ => rfl

theorem write_taken {s : Sink} (h : s.refuses s.calls = none) (chunk : Bytes) :
    s.write chunk = (s.taking [chunk], none) := by
  unfold write
  rw [h]
  rfl

theorem writeLine_taken {s : Sink} (h : s.NeverRefuses) (line : Bytes) :
    s.writeLine line = (s.taking [line.line], none) :=
  write_taken (h s.calls) line.line

/-! ### Chunks up to the first refusal -/

/-- Writes chunks up to the first that is refused: its error, and the sink after it. -/
def pour (s : Sink) : List Bytes → Option Bytes × Sink
  | [] => (none, s)
  | chunk :: rest =>
    match s.write chunk with
    | (s, none) => pour s rest
    | (s, some err) => (some err, s)

theorem pour_cons_taken {s : Sink} (h : s.refuses s.calls = none) (chunk : Bytes)
    (rest : List Bytes) : s.pour (chunk :: rest) = (s.taking [chunk]).pour rest := by
  rw [pour, write_taken h]

/-- As long as none of the calls is refused, all chunks are taken. -/
theorem pour_taken (chunks : List Bytes) :
    ∀ {s : Sink}, (∀ k < chunks.length, s.refuses (s.calls + k) = none) →
      s.pour chunks = (none, s.taking chunks) := by
  induction chunks with
  | nil => intro s _; rfl
  | cons chunk rest ih =>
      intro s h
      have hfirst : s.refuses s.calls = none := h 0 (by simp)
      have hrest : ∀ k < rest.length,
          (s.taking [chunk]).refuses ((s.taking [chunk]).calls + k) = none := by
        intro k hk
        have hnext := h (k + 1) (by simpa using hk)
        rwa [Nat.add_comm k 1, ← Nat.add_assoc] at hnext
      rw [pour_cons_taken hfirst, ih hrest, taking_taking]
      rfl

/-- **A refused call is the last one**: the chunks before it are taken, and nothing behind it
is even tried. -/
theorem pour_refused {n : Nat} {err : Bytes} (chunks : List Bytes) :
    ∀ {s : Sink}, n < chunks.length → (∀ k < n, s.refuses (s.calls + k) = none) →
      s.refuses (s.calls + n) = some err →
      s.pour chunks = (some err, { s.taking (chunks.take n) with calls := s.calls + n + 1 }) := by
  induction n generalizing chunks with
  | zero =>
      intro s hlt _ herr
      obtain ⟨chunk, rest, rfl⟩ := List.exists_cons_of_length_pos hlt
      rw [Nat.add_zero] at herr
      rw [pour, write, herr]
      rfl
  | succ n ih =>
      intro s hlt hfree herr
      obtain ⟨chunk, rest, rfl⟩ := List.exists_cons_of_length_pos (Nat.zero_lt_of_lt hlt)
      have hfirst : s.refuses s.calls = none := hfree 0 (by simp)
      have hcalls : ∀ k, (s.taking [chunk]).calls + k = s.calls + (k + 1) := by
        intro k
        show s.calls + 1 + k = s.calls + (k + 1)
        omega
      have hrest := ih (s := s.taking [chunk]) rest (by simpa using hlt)
        (fun k hk => by rw [hcalls]; exact hfree (k + 1) (by omega))
        (by rw [hcalls]; exact herr)
      rw [pour_cons_taken hfirst, hrest, taking_taking, hcalls]
      rfl

theorem pour_neverRefuses (chunks : List Bytes) {s : Sink} (h : s.NeverRefuses) :
    s.pour chunks = (none, s.taking chunks) :=
  pour_taken chunks fun _ _ => h _

/-! ### Refusing from some call on -/

/-- The same sink, but every call from number `n` on is refused with an error of its own. -/
def refusingFrom (s : Sink) (n : Nat) (error : Nat → Bytes) : Sink :=
  { s with refuses := fun call => if call < n then none else some (error call) }

@[simp] theorem refusingFrom_taking (s : Sink) (n : Nat) (error : Nat → Bytes)
    (a : List Bytes) : (s.refusingFrom n error).taking a = (s.taking a).refusingFrom n error :=
  rfl

@[simp] theorem chunks_refusingFrom (s : Sink) (n : Nat) (error : Nat → Bytes) :
    (s.refusingFrom n error).chunks = s.chunks := rfl

/-- As long as there are calls left for them, all chunks are taken. -/
theorem pour_refusingFrom_fits {n : Nat} {error : Nat → Bytes} (chunks : List Bytes) {s : Sink}
    (h : s.calls + chunks.length ≤ n) :
    (s.refusingFrom n error).pour chunks = (none, (s.taking chunks).refusingFrom n error) := by
  refine pour_taken chunks ?_
  intro k hk
  exact if_pos (show s.calls + k < n by omega)

/-- **More chunks than calls are left: the error is that of call `n`, and the sink holds what it
held and as many of the chunks as it had calls for.** -/
theorem pour_refusingFrom_overflows {n : Nat} {error : Nat → Bytes} (chunks : List Bytes)
    {s : Sink} (hle : s.calls ≤ n) (hlt : n < s.calls + chunks.length) :
    ((s.refusingFrom n error).pour chunks).1 = some (error n) ∧
      ((s.refusingFrom n error).pour chunks).2.chunks
        = s.chunks ++ chunks.take (n - s.calls) := by
  have hfree : ∀ k < n - s.calls, (s.refusingFrom n error).refuses (s.calls + k) = none := by
    intro k hk
    exact if_pos (show s.calls + k < n by omega)
  have hlast : s.calls + (n - s.calls) = n := by omega
  have hfull : (s.refusingFrom n error).refuses (s.calls + (n - s.calls)) = some (error n) := by
    rw [hlast]
    exact if_neg (Nat.lt_irrefl n)
  rw [pour_refused chunks (by omega) hfree hfull]
  exact ⟨rfl, chunks_taking s _⟩

end TinyLisp.Sink
