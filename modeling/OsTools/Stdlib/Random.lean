import Mathlib.Data.Finite.Prod
import Mathlib.Data.Fintype.Pi
import Mathlib.Data.List.Induction
import Mathlib.Dynamics.PeriodicPts.Lemmas
import Mathlib.Logic.Equiv.Basic
/-!
# OsTools.Stdlib.Random

The pseudo-random numbers of `lib/random.c`: a table of 256 bytes and two indices into
it, from which `random_bytes` draws one byte after the other.

The table is read and written at bytes, so that no index is out of range; `byte` is the
table as a function, and a swap composes it with a transposition.

## Proof shape

Two facts carry the file. A pass of the loop can be undone (`advance_injective`), because
the indices go back by what the table says and a swap is its own inverse. So the states form
cycles, and a stream that begins in a state comes back to it: the states are finitely many.
And every step permutes the table, which is kept by all calls (`random_table_shuffled`).

A request for several bytes is a request for each of them, so that any sequence of requests
is a piece of one stream (`runs_requests`), whatever the sizes are. The first call of the
source tests whether there is a seed; `ready` is the state behind that test.
-/

namespace OsTools.Stdlib.Random

/-- `s[256]`. -/
structure Table where
  bytes : Vector UInt8 256
  deriving DecidableEq

namespace Table

/-- `s[i]`. -/
def byte (s : Table) (i : UInt8) : UInt8 := s.bytes.get ⟨i.toNat, i.toNat_lt⟩

/-- `s[i] = x`. -/
def set (s : Table) (i x : UInt8) : Table := ⟨s.bytes.set i.toNat x i.toNat_lt⟩

/-- `swap_byte (s + a, s + b)`. -/
def swapByte (s : Table) (a b : UInt8) : Table :=
  let t := s.byte a
  (s.set a (s.byte b)).set b t

variable {s : Table} {a b : UInt8}

theorem byte_set {x : UInt8} {k : UInt8} :
    (s.set a x).byte k = if k = a then x else s.byte k := by
  have hk : k.toNat < 256 := k.toNat_lt
  show (s.bytes.set a.toNat x a.toNat_lt)[k.toNat] = if k = a then x else s.bytes[k.toNat]
  rw [Vector.getElem_set]
  by_cases h : k = a
  · rw [if_pos h, if_pos (by rw [h])]
  · rw [if_neg h, if_neg fun heq => h (UInt8.toNat_inj.mp heq.symm)]

theorem byte_swapByte : (s.swapByte a b).byte = s.byte ∘ Equiv.swap a b := by
  funext k
  show ((s.set _ _).set _ _).byte k = s.byte (Equiv.swap a b k)
  rw [byte_set, byte_set, Equiv.swap_apply_def]
  by_cases hb : k = b
  · rw [if_pos hb]
    by_cases ha : k = a
    · rw [if_pos ha, ← hb, ha]
    · rw [if_neg ha, if_pos hb]
  · rw [if_neg hb]
    by_cases ha : k = a
    · rw [if_pos ha, if_pos ha]
    · rw [if_neg ha, if_neg ha, if_neg hb]

end Table

/-- The static variables of `random.c`. -/
structure Rng where
  s : Table
  sI : UInt8
  sJ : UInt8
  inited : Bool

/-- `seedp[i]`. -/
def seedByte (seed : UInt32) (i : Nat) : UInt8 := UInt8.ofNat (seed.toNat / 256 ^ i)

/-- The second loop of `random_init`, for the first `n` values of `i`, with `j`. -/
def mix (seed : UInt32) (s : Table) : Nat → Table × UInt8
  | 0 => (s, 0)
  | n + 1 =>
      let (s, j) := mix seed s n
      let i := UInt8.ofNat n
      let j := j + (s.byte i + seedByte seed (n % 4))
      (s.swapByte i j, j)

/-- The table after the first loop of `random_init`. -/
def identity : Table := ⟨Vector.ofFn fun i => UInt8.ofNat i⟩

/-- `random_init`, whose loop has `n` passes. -/
def randomInitLoop (seed : UInt32) (n : Nat) : Rng := ⟨(mix seed identity n).1, 0, 0, true⟩

def randomInit (seed : UInt32) : Rng := randomInitLoop seed 256

/-- A pass of the loop of `random_bytes`: the byte that it writes, and the state after it. -/
def next (r : Rng) : UInt8 × Rng :=
  let sI := r.sI + 1
  let sJ := r.sJ + r.s.byte sI
  let s := r.s.swapByte sI sJ
  let sK := s.byte sI + s.byte sJ
  (s.byte sK, { r with s, sI, sJ })

/-- The loop of `random_bytes`. -/
def draw (r : Rng) : Nat → List UInt8 × Rng
  | 0 => ([], r)
  | size + 1 =>
      let (c, r) := next r
      let (buf, r) := draw r size
      (c :: buf, r)

def randomBytes (r : Rng) (size : Nat) : List UInt8 × Rng :=
  draw (if r.inited then r else randomInit 0) size

/-- `random_ulong`, as the bytes of the number. -/
def randomUlong (r : Rng) : List UInt8 × Rng := randomBytes r 4

/-! ### The table -/

/-- Every byte is in the table once. -/
def Shuffled (r : Rng) : Prop := Function.Injective r.s.byte

theorem mix_injective (seed : UInt32) {s : Table} (hs : Function.Injective s.byte) (n : Nat) :
    Function.Injective (mix seed s n).1.byte := by
  induction n with
  | zero => exact hs
  | succ n ih =>
      show Function.Injective (Table.swapByte (mix seed s n).1 _ _).byte
      rw [Table.byte_swapByte]
      exact ih.comp (Equiv.swap _ _).injective

theorem identity_byte (i : UInt8) : identity.byte i = i := by
  have hi : i.toNat < 256 := i.toNat_lt
  have hget : identity.byte i = (Vector.ofFn (n := 256) fun i => UInt8.ofNat i)[i.toNat] := rfl
  rw [hget, Vector.getElem_ofFn]
  exact UInt8.ofNat_toNat

theorem randomInitLoop_shuffled (seed : UInt32) (n : Nat) : Shuffled (randomInitLoop seed n) := by
  have hid : Function.Injective identity.byte := fun i j h => by
    rwa [identity_byte, identity_byte] at h
  exact mix_injective seed hid n

theorem randomInit_shuffled (seed : UInt32) : Shuffled (randomInit seed) :=
  randomInitLoop_shuffled seed 256

theorem next_shuffled {r : Rng} (h : Shuffled r) : Shuffled (next r).2 := by
  show Function.Injective (Table.swapByte r.s _ _).byte
  rw [Table.byte_swapByte]
  exact h.comp (Equiv.swap _ _).injective

/-- The short cycles that the generator has on some tables. -/
def OnShortCycle (r : Rng) : Prop := r.sJ = r.sI + 1 ∧ r.s.byte r.sJ = 1

/-- Only states on a short cycle lead to one. -/
theorem onShortCycle_of_next {r : Rng} (h : OnShortCycle (next r).2) : OnShortCycle r := by
  obtain ⟨hj, hone⟩ := h
  change r.sJ + r.s.byte (r.sI + 1) = r.sI + 1 + 1 at hj
  change (r.s.swapByte (r.sI + 1) (r.sJ + r.s.byte (r.sI + 1))).byte (r.sJ + r.s.byte (r.sI + 1)) = 1
    at hone
  have hsame : r.s.byte (r.sI + 1) = 1 := by
    rw [Table.byte_swapByte] at hone
    simpa using hone
  rw [hsame] at hj
  have hj' : r.sJ = r.sI + 1 := (UInt8.add_left_inj _).mp hj
  exact ⟨hj', by rw [hj', hsame]⟩

theorem randomInit_not_onShortCycle (seed : UInt32) : ¬ OnShortCycle (randomInit seed) :=
  fun h => absurd h.1 (by show ¬ (0 : UInt8) = 0 + 1; decide)

/-! ### The stream -/

/-- The state after a byte, and the bytes to come. -/
def advance (r : Rng) : Rng := (next r).2

def keystream (r : Rng) (n : Nat) : UInt8 := (next (advance^[n] r)).1

variable {r : Rng} {seed : UInt32}

theorem draw_eq (r : Rng) (size : Nat) :
    draw r size = ((List.range size).map (keystream r), advance^[size] r) := by
  induction size generalizing r with
  | zero => rfl
  | succ size ih =>
      have hshift : keystream (advance r) = fun n => keystream r (n + 1) := by
        funext n
        rfl
      show ((next r).1 :: (draw (advance r) size).1, (draw (advance r) size).2) = _
      rw [ih, List.range_succ_eq_map, List.map_cons, List.map_map, hshift]
      rfl

theorem Table.ext_byte {s s' : Table} (h : s.byte = s'.byte) : s = s' := by
  obtain ⟨s⟩ := s
  obtain ⟨s'⟩ := s'
  congr 1
  refine Vector.ext fun i hi => ?_
  have hbyte := congrFun h (UInt8.ofNat i)
  have hidx : (UInt8.ofNat i).toNat = i := by
    rw [UInt8.toNat_ofNat']
    exact Nat.mod_eq_of_lt hi
  have hlt : (UInt8.ofNat i).toNat < 256 := by omega
  have hget : s[(UInt8.ofNat i).toNat] = s'[(UInt8.ofNat i).toNat] := hbyte
  simpa only [hidx] using hget

instance finiteUInt8 : Finite UInt8 := Finite.of_injective UInt8.toFin fun _ _ h => UInt8.toFin_inj.mp h

instance finiteRng : Finite Rng := by
  refine Finite.of_injective (fun r => (r.s.byte, r.sI, r.sJ, r.inited)) fun r r' h => ?_
  obtain ⟨s, i, j, inited⟩ := r
  obtain ⟨s', i', j', inited'⟩ := r'
  simp only [Prod.mk.injEq] at h
  obtain ⟨hs, rfl, rfl, rfl⟩ := h
  rw [Table.ext_byte hs]

/-- A step can be undone. -/
theorem advance_injective : Function.Injective advance := by
  intro r r' h
  obtain ⟨s, i, j, inited⟩ := r
  obtain ⟨s', i', j', inited'⟩ := r'
  simp only [advance, next, Rng.mk.injEq] at h
  obtain ⟨hs, hi, hj, rfl⟩ := h
  obtain rfl : i = i' := (UInt8.add_left_inj _).mp hi
  have hbyte : s.byte ∘ Equiv.swap (i + 1) (j + s.byte (i + 1)) =
      s'.byte ∘ Equiv.swap (i + 1) (j + s.byte (i + 1)) := by
    rw [← Table.byte_swapByte, hs, Table.byte_swapByte, hj]
  obtain rfl : s = s' := Table.ext_byte ((Equiv.surjective _).injective_comp_right hbyte)
  obtain rfl : j = j' := (UInt8.add_left_inj _).mp hj
  rfl

theorem keystream_periodic (r : Rng) : ∃ p, 0 < p ∧ ∀ n, keystream r (n + p) = keystream r n := by
  obtain ⟨p, hp, hper⟩ := Function.mem_periodicPts.mp (advance_injective.mem_periodicPts r)
  refine ⟨p, hp, fun n => ?_⟩
  unfold keystream
  rw [Function.iterate_add_apply, hper.eq]

/-! ### Runs -/

/-- The functions that `random.h` declares. -/
inductive Call
  | init (seed : UInt32)
  | bytes (size : Nat)
  | ulong
  deriving DecidableEq

namespace Call

/-- How many bytes a call draws. -/
def size : Call → Nat
  | init _ => 0
  | bytes size => size
  | ulong => 4

def isRequest : Call → Bool
  | init _ => false
  | _ => true

def run (r : Rng) : Call → List UInt8 × Rng
  | init seed => ([], randomInit seed)
  | bytes size => randomBytes r size
  | ulong => randomUlong r

end Call

/-- Calls one after the other, with all bytes that they return. -/
def runs (r : Rng) : List Call → List UInt8 × Rng
  | [] => ([], r)
  | c :: cs =>
      let (buf, r) := c.run r
      let (buf', r) := runs r cs
      (buf ++ buf', r)

/-- Before the first call. -/
def boot : Rng := ⟨⟨Vector.replicate 256 0⟩, 0, 0, false⟩

/-- The state that `random_bytes` draws from. -/
def ready (r : Rng) : Rng := if r.inited then r else randomInit 0

theorem ready_ready (r : Rng) : (ready r).inited = true := by
  unfold ready
  split
  · assumption
  · rfl

theorem ready_of_inited (h : r.inited = true) : ready r = r := if_pos h

theorem iterate_inited (n : Nat) : (advance^[n] r).inited = r.inited := by
  induction n with
  | zero => rfl
  | succ n ih => rw [Function.iterate_succ_apply', ← ih]; rfl

theorem run_request {c : Call} (h : c.isRequest = true) :
    c.run r = ((List.range c.size).map (keystream (ready r)), advance^[c.size] (ready r)) := by
  cases c with
  | init seed => exact absurd h (by simp [Call.isRequest])
  | bytes size => exact draw_eq _ _
  | ulong => exact draw_eq _ _

theorem runs_append (r : Rng) (cs ds : List Call) :
    runs r (cs ++ ds) = ((runs r cs).1 ++ (runs (runs r cs).2 ds).1, (runs (runs r cs).2 ds).2) := by
  induction cs generalizing r with
  | nil => rfl
  | cons c cs ih =>
      show ((c.run r).1 ++ (runs (c.run r).2 (cs ++ ds)).1, (runs (c.run r).2 (cs ++ ds)).2) = _
      rw [ih, ← List.append_assoc]
      rfl

/-- Requests draw from the stream, however it is split. -/
theorem runs_requests {cs : List Call} (h : ∀ c ∈ cs, c.isRequest = true) :
    (runs r cs).1 = (List.range (cs.map Call.size).sum).map (keystream (ready r)) := by
  induction cs generalizing r with
  | nil => rfl
  | cons c cs ih =>
      have hrun := run_request (r := r) (h c List.mem_cons_self)
      have hready : ready (c.run r).2 = advance^[c.size] (ready r) := by
        rw [hrun]
        exact ready_of_inited (by rw [iterate_inited, ready_ready])
      have hrest := ih (r := (c.run r).2) fun d hd => h d (List.mem_cons_of_mem _ hd)
      have hshift : keystream (advance^[c.size] (ready r)) =
          fun n => keystream (ready r) (c.size + n) := by
        funext n
        unfold keystream
        rw [Nat.add_comm, Function.iterate_add_apply]
      show (c.run r).1 ++ (runs (c.run r).2 cs).1 = _
      rw [hrest, hready, hshift, hrun, List.map_cons, List.sum_cons, List.range_add,
        List.map_append, List.map_map]
      rfl

theorem runs_init (r : Rng) (seed : UInt32) (cs : List Call) :
    (runs r (.init seed :: cs)).1 = (runs (randomInit seed) cs).1 := List.nil_append _

/-- **The stream of a seed.** After `random_init (seed)` any requests together return the bytes
of one stream, which depends on the seed alone and repeats itself from its beginning on; without
a call of `random_init` it is the stream of 0. -/
theorem random_stream (seed : UInt32) (before : List Call) {cs : List Call}
    (h : ∀ c ∈ cs, c.isRequest = true) :
    (runs boot (before ++ .init seed :: cs)).1 = (runs boot before).1 ++
        (List.range (cs.map Call.size).sum).map (keystream (randomInit seed)) ∧
      (runs boot cs).1 = (List.range (cs.map Call.size).sum).map (keystream (randomInit 0)) ∧
      ∃ p, 0 < p ∧ ∀ n, keystream (randomInit seed) (n + p) = keystream (randomInit seed) n := by
  refine ⟨?_, runs_requests h, keystream_periodic _⟩
  have hready : ready (randomInit seed) = randomInit seed := ready_of_inited rfl
  have hcs := runs_requests (r := randomInit seed) h
  rw [hready] at hcs
  rw [runs_append, ← hcs, runs_init]

theorem random_stream_split :
    (runs boot ([.ulong] ++ .init 7 :: [.bytes 3, .ulong, .bytes 0])).1 = (runs boot [.ulong]).1 ++
        (List.range 7).map (keystream (randomInit 7)) ∧
      (runs boot [.bytes 3, .ulong, .bytes 0]).1 =
        (List.range 7).map (keystream (randomInit 0)) ∧
      ∃ p, 0 < p ∧ ∀ n, keystream (randomInit 7) (n + p) = keystream (randomInit 7) n :=
  random_stream 7 [.ulong] (by decide)

/-- **The table stays a permutation.** Whatever calls have been made, every byte is in the table
once, and the generator is on none of its short cycles; where none has been made, this is so of the
table that the first one begins with (`ready`). By induction on the calls from the end: a call of
`random_init` makes a new table, and any other one is some steps of the generator. -/
theorem random_table_shuffled (cs : List Call) :
    Shuffled (ready (runs boot cs).2) ∧ ¬ OnShortCycle (ready (runs boot cs).2) := by
  have hiterate : ∀ (n : Nat) (r : Rng), Shuffled r ∧ ¬ OnShortCycle r →
      Shuffled (advance^[n] r) ∧ ¬ OnShortCycle (advance^[n] r) := by
    intro n
    induction n with
    | zero => exact fun _ h => h
    | succ n ih =>
        exact fun r h => ih _ ⟨next_shuffled h.1, fun hc => h.2 (onShortCycle_of_next hc)⟩
  have hinit : ∀ seed, Shuffled (randomInit seed) ∧ ¬ OnShortCycle (randomInit seed) :=
    fun seed => ⟨randomInit_shuffled seed, randomInit_not_onShortCycle seed⟩
  induction cs using List.reverseRecOn with
  | nil => exact hinit 0
  | append_singleton cs c ih =>
      rw [runs_append]
      show Shuffled (ready (c.run _).2) ∧ ¬ OnShortCycle (ready (c.run _).2)
      cases hc : c.isRequest with
      | false =>
          cases c with
          | init seed => exact hinit seed
          | bytes size => exact absurd hc (by simp [Call.isRequest])
          | ulong => exact absurd hc (by decide)
      | true =>
          rw [run_request hc, ready_of_inited (by rw [iterate_inited, ready_ready])]
          exact hiterate _ _ ih

end OsTools.Stdlib.Random
