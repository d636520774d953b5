import Mathlib.Logic.Relation
import OsTools.Kernel.ListSort
import OsTools.Lib.Count
import OsTools.Lib.Run
import OsTools.Words.Count
/-!
# OsTools.Words.Pwords

The threads of `hw-list/pwords.c` on the list of words that they share: `add_word` of
`word_count_p.c` step by step, and `wordcount_sort`.

The nodes of the list have numbers by their age. As `list_push_front` puts a new node in
front of the others, the list from front to back is that of the nodes from the newest to the
oldest, and a pointer to a node stays good.

`less_count` is there as an object file only. `LessCount` is what its header says.

## Proof shape

The invariant counts: for each word, the calls that have been made and those to come make up
the total (`sum_setThread` moves one from the second to the first), and the nodes hold what
has been made (`Stored`). The lock makes `add_word` one thread's business at a time, so that
what a thread has seen of the list stays true (`At`).

That every run comes to its end is a ranking of the states by the calls to come and then by
the steps within a call. In the end the nodes are determined up to their order, and the sort
makes one list of them, since no two entries are alike to `less_count`
(`LessCount.antisymm`).
-/

namespace OsTools.Words.Pwords

open OsTools.Kernel

abbrev Word := List UInt8

/-- `struct word_count`. -/
structure WordCount where
  word : Word
  count : Int
  deriving DecidableEq

/-- Where a thread is. -/
inductive Pc
  /-- Between two calls of `add_word`. -/
  | idle
  /-- In the loop of `find_word`, with so many nodes to go. -/
  | find (cursor : Nat)
  /-- At `w->count++`, where `w` is the node of that number. -/
  | load (node : Nat)
  /-- In the middle of it, with the value that was read. -/
  | store (node : Nat) (count : Int)
  /-- Behind `find_word`, without a node. -/
  | push
  /-- At `pthread_mutex_unlock`. -/
  | unlock
  deriving DecidableEq

/-- A thread: the words that it is still going to add, from that of the call at hand on. -/
structure Thread where
  todo : List Word
  pc : Pc

structure State (ι : Type*) where
  lock : Option ι
  nodes : List WordCount
  threads : ι → Thread

/-- The list from front to back. -/
def State.lst {ι : Type*} (s : State ι) : List WordCount := s.nodes.reverse

section Model

variable {ι : Type*} [DecidableEq ι]

/-- The thread `i` is there now. -/
def State.setThread (s : State ι) (i : ι) (t : Thread) : State ι :=
  { s with threads := Function.update s.threads i t }

/-- The steps of the thread `i`. -/
inductive Step (s : State ι) (i : ι) : State ι → Prop
  | lock {w : Word} {rest : List Word} (ht : s.threads i = ⟨w :: rest, .idle⟩)
      (hfree : s.lock = none) :
      Step s i { s.setThread i ⟨w :: rest, .find s.nodes.length⟩ with lock := some i }
  | next {w : Word} {rest : List Word} {c : Nat} {e : WordCount}
      (ht : s.threads i = ⟨w :: rest, .find (c + 1)⟩) (he : s.nodes[c]? = some e)
      (hword : e.word ≠ w) : Step s i (s.setThread i ⟨w :: rest, .find c⟩)
  | found {w : Word} {rest : List Word} {c : Nat} {e : WordCount}
      (ht : s.threads i = ⟨w :: rest, .find (c + 1)⟩) (he : s.nodes[c]? = some e)
      (hword : e.word = w) : Step s i (s.setThread i ⟨w :: rest, .load c⟩)
  | missing {w : Word} {rest : List Word} (ht : s.threads i = ⟨w :: rest, .find 0⟩) :
      Step s i (s.setThread i ⟨w :: rest, .push⟩)
  | load {w : Word} {rest : List Word} {c : Nat} {e : WordCount}
      (ht : s.threads i = ⟨w :: rest, .load c⟩) (he : s.nodes[c]? = some e) :
      Step s i (s.setThread i ⟨w :: rest, .store c e.count⟩)
  | store {w : Word} {rest : List Word} {c : Nat} {count : Int} {e : WordCount}
      (ht : s.threads i = ⟨w :: rest, .store c count⟩) (he : s.nodes[c]? = some e) :
      Step s i { s.setThread i ⟨rest, .unlock⟩ with
        nodes := s.nodes.set c { e with count := toInt (count + 1) } }
  | push {w : Word} {rest : List Word} (ht : s.threads i = ⟨w :: rest, .push⟩) :
      Step s i { s.setThread i ⟨rest, .unlock⟩ with nodes := s.nodes ++ [⟨w, 1⟩] }
  | unlock {todo : List Word} (ht : s.threads i = ⟨todo, .unlock⟩) :
      Step s i { s.setThread i ⟨todo, .idle⟩ with lock := none }

/-- The threads at the start, each with its words, and the list behind `init_words`. -/
def start (words : ι → List Word) : State ι := ⟨none, [], fun i => ⟨words i, .idle⟩⟩

/-- The states that are reached in some order of steps. -/
def Reachable (words : ι → List Word) (s : State ι) : Prop :=
  Relation.ReflTransGen (fun s s' => ∃ i, Step s i s') (start words) s

/-- No thread can go on. -/
def Final (s : State ι) : Prop := ∀ i s', ¬ Step s i s'

/-- The number of calls for a word over all threads. -/
def total [Fintype ι] (words : ι → List Word) (w : Word) : Nat := ∑ i, (words i).count w

end Model

/-- `wordcount_sort`. -/
def wordcountSort (less : WordCount → WordCount → Bool) (l : List WordCount) :
    Option (List WordCount) := listSort less l

/-- What `less_count` returns: whether the first entry has a lower count than the second one,
where ties are broken by the alphabetical order. -/
def LessCount (less : WordCount → WordCount → Bool) : Prop :=
  ∀ a b, less a b = true ↔ a.count < b.count ∨ a.count = b.count ∧ a.word < b.word

/-! ### The list -/

/-- The nodes hold each word that was added, once, with the number of times as an `int`. -/
structure Stored (done : Word → Nat) (nodes : List WordCount) : Prop where
  nodup : (nodes.map WordCount.word).Nodup
  mem : ∀ w, w ∈ nodes.map WordCount.word ↔ 0 < done w
  count : ∀ e ∈ nodes, e.count = toInt (done e.word)

section Stored

variable {done : Word → Nat} {nodes nodes' : List WordCount} {e : WordCount} {c : Nat} {w : Word}

theorem toInt_succ (n : Nat) : toInt (toInt n + 1) = toInt ((n + 1 : Nat) : Int) := by
  unfold toInt
  rw [Int.bmod_add_bmod]
  rfl

/-- One more call for a word that is there. -/
theorem Stored.set (h : Stored done nodes) (he : nodes[c]? = some e) (hword : e.word = w) :
    Stored (Function.update done w (done w + 1))
      (nodes.set c { e with count := toInt (e.count + 1) }) := by
  have hlt := (List.getElem?_eq_some_iff.mp he).1
  have hmap : (nodes.set c { e with count := toInt (e.count + 1) }).map WordCount.word =
      nodes.map WordCount.word := by
    refine List.ext_getElem? fun n => ?_
    rw [List.getElem?_map, List.getElem?_map]
    by_cases hn : c = n
    · subst hn
      rw [List.getElem?_set_self hlt, he]
      rfl
    · rw [List.getElem?_set_ne hn]
  have hmem : w ∈ nodes.map WordCount.word :=
    List.mem_map.mpr ⟨e, List.mem_of_getElem? he, hword⟩
  refine ⟨by rw [hmap]; exact h.nodup, fun x => ?_, fun f hf => ?_⟩
  · rw [hmap]
    by_cases hx : x = w
    · subst hx
      rw [Function.update_self]
      exact ⟨fun _ => Nat.succ_pos _, fun _ => hmem⟩
    · rw [Function.update_of_ne hx]
      exact h.mem x
  · obtain ⟨n, hn⟩ := List.mem_iff_getElem?.mp hf
    by_cases hcn : c = n
    · subst hcn
      rw [List.getElem?_set_self hlt] at hn
      cases hn
      dsimp only
      rw [hword, Function.update_self, h.count e (List.mem_of_getElem? he), hword, toInt_succ]
    · rw [List.getElem?_set_ne hcn] at hn
      have hne : f.word ≠ w := by
        intro hfw
        refine hcn ((List.getElem?_inj (by rw [List.length_map]; exact hlt) h.nodup).mp ?_)
        rw [List.getElem?_map, List.getElem?_map, he, hn, Option.map_some, Option.map_some,
          hword, hfw]
      rw [Function.update_of_ne hne]
      exact h.count f (List.mem_of_getElem? hn)

/-- The first call for a word. -/
theorem Stored.append (h : Stored done nodes) (hnew : ∀ e ∈ nodes, e.word ≠ w) :
    Stored (Function.update done w (done w + 1)) (nodes ++ [⟨w, 1⟩]) := by
  have hnot : w ∉ nodes.map WordCount.word := by
    intro hmem
    obtain ⟨e, he, hword⟩ := List.mem_map.mp hmem
    exact hnew e he hword
  have hzero : done w = 0 := by
    have := (h.mem w).not.mp hnot
    omega
  refine ⟨?_, fun x => ?_, fun f hf => ?_⟩
  · rw [List.map_append]
    refine List.nodup_append.mpr ⟨h.nodup, List.nodup_singleton _, fun a ha b hb => ?_⟩
    rw [List.mem_singleton.mp hb]
    rintro rfl
    exact hnot ha
  · rw [List.map_append, List.mem_append]
    by_cases hx : x = w
    · subst hx
      rw [Function.update_self]
      exact ⟨fun _ => Nat.succ_pos _, fun _ => .inr (List.mem_singleton_self _)⟩
    · rw [Function.update_of_ne hx, h.mem x]
      refine ⟨fun hor => hor.resolve_right fun hsingle => ?_, .inl⟩
      exact hx (List.mem_singleton.mp hsingle)
  · rcases List.mem_append.mp hf with hold | hsingle
    · rw [Function.update_of_ne (hnew f hold)]
      exact h.count f hold
    · rw [List.mem_singleton.mp hsingle]
      dsimp only
      rw [Function.update_self, hzero]
      decide

/-- What was added determines the nodes, up to their order. -/
theorem Stored.perm (h : Stored done nodes) (h' : Stored done nodes') : nodes.Perm nodes' := by
  have hmem : ∀ {l : List WordCount}, Stored done l →
      ∀ e, e ∈ l ↔ 0 < done e.word ∧ e.count = toInt (done e.word) := by
    intro l hl e
    constructor
    · intro he
      exact ⟨(hl.mem e.word).mp (List.mem_map_of_mem he), hl.count e he⟩
    · rintro ⟨hpos, hcount⟩
      obtain ⟨f, hf, hword⟩ := List.mem_map.mp ((hl.mem e.word).mpr hpos)
      have hsame : f.count = e.count := by
        rw [hl.count f hf, hcount, hword]
      obtain ⟨w, n⟩ := e
      obtain ⟨w', n'⟩ := f
      dsimp only at hword hsame
      subst hword hsame
      exact hf
  refine (List.perm_ext_iff_of_nodup (.of_map _ h.nodup) (.of_map _ h'.nodup)).mpr fun e => ?_
  rw [hmem h, hmem h']

end Stored

/-! ### The invariant -/

/-- What a thread knows where it is. -/
def At (nodes : List WordCount) (t : Thread) : Prop :=
  match t.pc with
  | .idle => True
  | .find cursor => cursor ≤ nodes.length ∧ ∃ w rest, t.todo = w :: rest ∧
      ∀ k e, cursor ≤ k → nodes[k]? = some e → e.word ≠ w
  | .load node => ∃ w rest e, t.todo = w :: rest ∧ nodes[node]? = some e ∧ e.word = w
  | .store node count =>
      ∃ w rest e, t.todo = w :: rest ∧ nodes[node]? = some e ∧ e.word = w ∧ e.count = count
  | .push => ∃ w rest, t.todo = w :: rest ∧ ∀ e ∈ nodes, e.word ≠ w
  | .unlock => True

section SetThread

variable {ι : Type*} [DecidableEq ι] (s : State ι)

theorem setThread_self (i : ι) (t : Thread) : (s.setThread i t).threads i = t :=
  Function.update_self _ _ _

theorem setThread_of_ne {i j : ι} (hj : j ≠ i) (t : Thread) :
    (s.setThread i t).threads j = s.threads j :=
  Function.update_of_ne hj _ _

/-- A sum over the threads changes as the one thread does. -/
theorem sum_setThread [Fintype ι] (i : ι) (t : Thread) (f : Thread → Nat) :
    ∑ j, f ((s.setThread i t).threads j) + f (s.threads i) = ∑ j, f (s.threads j) + f t := by
  have hsum := sum_update (fun j => f (s.threads j)) i (f t)
  have hcomp : (fun j => f ((s.setThread i t).threads j)) =
      Function.update (fun j => f (s.threads j)) i (f t) := by
    funext j
    by_cases hj : j = i
    · subst hj
      rw [setThread_self, Function.update_self]
    · rw [setThread_of_ne s hj, Function.update_of_ne hj]
  rw [hcomp]
  exact hsum

end SetThread

section Invariant

variable {ι : Type*} [DecidableEq ι] [Fintype ι] {words : ι → List Word} {s : State ι} {i : ι}
  {t : Thread} {w : Word}

/-- The number of calls for a word to come. -/
def remaining (s : State ι) (w : Word) : Nat := ∑ i, (s.threads i).todo.count w

/-- The lock is with the thread that is in `add_word`, and the nodes hold the words of the
calls that were made. -/
structure Inv (words : ι → List Word) (s : State ι) : Prop where
  lock : ∀ i, (s.threads i).pc ≠ .idle ↔ s.lock = some i
  at_pc : ∀ i, At s.nodes (s.threads i)
  stored : ∃ done, Stored done s.nodes ∧ ∀ w, done w + remaining s w = total words w

theorem remaining_setThread (s : State ι) (i : ι) (t : Thread) (w : Word) :
    remaining (s.setThread i t) w + (s.threads i).todo.count w =
      remaining s w + t.todo.count w :=
  sum_setThread s i t fun t => t.todo.count w

omit [DecidableEq ι] in
theorem inv_start (words : ι → List Word) : Inv words (start words) where
  lock i := ⟨fun h => absurd rfl h, nofun⟩
  at_pc _ := trivial
  stored := by
    refine ⟨fun _ => 0, ⟨List.nodup_nil, fun w => ?_, nofun⟩, fun w => Nat.zero_add _⟩
    simp [start]

/-- A thread goes on without changing the nodes. -/
theorem Inv.move (h : Inv words s) (htodo : t.todo = (s.threads i).todo) (hat : At s.nodes t)
    {lock : Option ι} (hself : t.pc ≠ .idle ↔ lock = some i)
    (hother : ∀ j, j ≠ i → (lock = some j ↔ s.lock = some j)) :
    Inv words { s.setThread i t with lock := lock } where
  lock j := by
    dsimp only
    by_cases hj : j = i
    · subst hj
      rw [setThread_self]
      exact hself
    · rw [setThread_of_ne s hj, hother j hj]
      exact h.lock j
  at_pc j := by
    dsimp only
    by_cases hj : j = i
    · subst hj
      rw [setThread_self]
      exact hat
    · rw [setThread_of_ne s hj]
      exact h.at_pc j
  stored := by
    obtain ⟨done, hstored, hdone⟩ := h.stored
    refine ⟨done, hstored, fun w => ?_⟩
    have hremaining := remaining_setThread s i t w
    rw [htodo] at hremaining
    change _ + remaining (s.setThread i t) w = _
    rw [← hdone w]
    omega

/-- It goes on within `add_word`. -/
theorem Inv.inside (h : Inv words s) {pc : Pc} (hin : (s.threads i).pc ≠ .idle)
    (htodo : t.todo = (s.threads i).todo) (hpc : t.pc = pc) (hne : pc ≠ .idle)
    (hat : At s.nodes t) : Inv words (s.setThread i t) :=
  h.move htodo hat ⟨fun _ => (h.lock i).mp hin, fun _ => hpc ▸ hne⟩ fun _ _ => Iff.rfl

/-- It adds its word: the list counts one more occurrence of it, and the thread has one
call less to make. The other threads are outside of the lock, so that what is said of them
stays. -/
theorem Inv.add (h : Inv words s) (hin : (s.threads i).pc ≠ .idle) {rest : List Word}
    (htodo : (s.threads i).todo = w :: rest) {nodes : List WordCount}
    (hadd : ∀ {done : Word → Nat}, Stored done s.nodes →
      Stored (Function.update done w (done w + 1)) nodes) :
    Inv words { s.setThread i ⟨rest, .unlock⟩ with nodes := nodes } where
  lock j := by
    dsimp only
    by_cases hj : j = i
    · subst hj
      rw [setThread_self]
      exact ⟨fun _ => (h.lock j).mp hin, fun _ => nofun⟩
    · rw [setThread_of_ne s hj]
      exact h.lock j
  at_pc j := by
    dsimp only
    by_cases hj : j = i
    · subst hj
      rw [setThread_self]
      trivial
    · rw [setThread_of_ne s hj]
      -- only the holder of the lock is inside
      have hidle : (s.threads j).pc = .idle := by
        by_contra hne
        have := ((h.lock j).mp hne).symm.trans ((h.lock i).mp hin)
        cases this
        exact hj rfl
      unfold At
      rw [hidle]
      trivial
  stored := by
    obtain ⟨done, hstored, hdone⟩ := h.stored
    refine ⟨_, hadd hstored, fun x => ?_⟩
    have hremaining := remaining_setThread s i ⟨rest, .unlock⟩ x
    have htotal := hdone x
    rw [htodo] at hremaining
    change _ + remaining (s.setThread i ⟨rest, .unlock⟩) x = _
    by_cases hx : x = w
    · subst hx
      rw [List.count_cons_self] at hremaining
      rw [Function.update_self]
      dsimp only at hremaining
      omega
    · rw [List.count_cons_of_ne (Ne.symm hx)] at hremaining
      rw [Function.update_of_ne hx]
      dsimp only at hremaining
      omega

/-- A step of any thread keeps the invariant. A thread that searches has passed entries of
other words only, and nobody changes the list meanwhile, since it has the lock. -/
theorem Inv.step {s' : State ι} (h : Inv words s) (hstep : Step s i s') : Inv words s' := by
  have hati := h.at_pc i
  cases hstep with
  | @lock w rest ht hfree =>
      refine h.move (t := ⟨w :: rest, .find s.nodes.length⟩) (by rw [ht])
        ⟨Nat.le_refl _, w, rest, rfl, fun k e hk he => ?_⟩ ⟨fun _ => rfl, fun _ => nofun⟩
        fun j hj => ?_
      · have hlt := (List.getElem?_eq_some_iff.mp he).1
        omega
      · rw [hfree]
        simp [Ne.symm hj]
  | @next w rest c e ht he hword =>
      rw [ht] at hati
      obtain ⟨hle, w', rest', htodo, hbefore⟩ := hati
      cases htodo
      refine h.inside (by rw [ht]; exact nofun) (by rw [ht]) rfl nofun
        ⟨by omega, w, rest, rfl, fun k f hk hf => ?_⟩
      rcases Nat.eq_or_lt_of_le hk with rfl | hlt
      · rw [he] at hf
        cases hf
        exact hword
      · exact hbefore k f hlt hf
  | @found w rest c e ht he hword =>
      exact h.inside (by rw [ht]; exact nofun) (by rw [ht]) rfl nofun ⟨w, rest, e, rfl, he, hword⟩
  | @missing w rest ht =>
      rw [ht] at hati
      obtain ⟨-, w', rest', htodo, hbefore⟩ := hati
      cases htodo
      refine h.inside (by rw [ht]; exact nofun) (by rw [ht]) rfl nofun ⟨w, rest, rfl, fun e he => ?_⟩
      -- the search has passed every entry
      obtain ⟨k, hk⟩ := List.mem_iff_getElem?.mp he
      exact hbefore k e (Nat.zero_le k) hk
  | @load w rest c e ht he =>
      rw [ht] at hati
      obtain ⟨w', rest', e', htodo, he', hword⟩ := hati
      cases htodo
      rw [he] at he'
      cases he'
      exact h.inside (by rw [ht]; exact nofun) (by rw [ht]) rfl nofun ⟨w, rest, e, rfl, he, hword, rfl⟩
  | @store w rest c count e ht he =>
      rw [ht] at hati
      obtain ⟨w', rest', e', htodo, he', hword, hcount⟩ := hati
      cases htodo
      rw [he] at he'
      cases he'
      -- the count that was loaded is still the one in the list
      subst hcount
      exact h.add (by rw [ht]; exact nofun) (by rw [ht]) fun hstored => hstored.set he hword
  | @push w rest ht =>
      rw [ht] at hati
      obtain ⟨w', rest', htodo, hnew⟩ := hati
      cases htodo
      exact h.add (by rw [ht]; exact nofun) (by rw [ht]) fun hstored => hstored.append hnew
  | @unlock todo ht =>
      have hlock : s.lock = some i := (h.lock i).mp (by rw [ht]; exact nofun)
      refine h.move (t := ⟨todo, .idle⟩) (by rw [ht]) trivial
        ⟨fun hne => absurd rfl hne, nofun⟩ fun j hj => ?_
      rw [hlock]
      simp [Ne.symm hj]

theorem Reachable.inv (h : Reachable words s) : Inv words s := by
  induction h with
  | refl => exact inv_start words
  | tail _ hstep ih =>
      obtain ⟨i, hstep⟩ := hstep
      exact ih.step hstep

/-- Some thread can go on as long as there are calls to come. So in a final state the lock
is free, for its holder could go on, and no thread has a call left, for it could take the
lock. -/
theorem Inv.final (h : Inv words s) (hfinal : Final s) : s.lock = none ∧
    ∀ i, (s.threads i).todo = [] := by
  have hidle : s.lock = none := by
    cases hlock : s.lock with
    | none => rfl
    | some i =>
        exfalso
        have hin := (h.lock i).mpr hlock
        have hati := h.at_pc i
        generalize ht : s.threads i = t at hin hati
        obtain ⟨todo, pc⟩ := t
        cases pc with
        | idle => exact hin rfl
        | find cursor =>
            obtain ⟨hle, w, rest, rfl, -⟩ := hati
            cases cursor with
            | zero => exact hfinal i _ (.missing ht)
            | succ c =>
                obtain ⟨e, he⟩ : ∃ e, s.nodes[c]? = some e := ⟨_, List.getElem?_eq_getElem hle⟩
                by_cases hword : e.word = w
                · exact hfinal i _ (.found ht he hword)
                · exact hfinal i _ (.next ht he hword)
        | load node =>
            obtain ⟨w, rest, e, rfl, he, -⟩ := hati
            exact hfinal i _ (.load ht he)
        | store node count =>
            obtain ⟨w, rest, e, rfl, he, -⟩ := hati
            exact hfinal i _ (.store ht he)
        | push =>
            obtain ⟨w, rest, rfl, -⟩ := hati
            exact hfinal i _ (.push ht)
        | unlock => exact hfinal i _ (.unlock ht)
  refine ⟨hidle, fun i => ?_⟩
  have hpc : (s.threads i).pc = .idle := by
    by_contra hne
    have := (h.lock i).mp hne
    rw [hidle] at this
    cases this
  cases htodo : (s.threads i).todo with
  | nil => rfl
  | cons w rest =>
      exfalso
      have ht : s.threads i = ⟨w :: rest, .idle⟩ := by rw [← htodo, ← hpc]
      exact hfinal i _ (.lock ht hidle)

/-- In the end, the nodes hold all the words. -/
theorem Inv.stored_total (h : Inv words s) (hfinal : Final s) : Stored (total words) s.nodes := by
  obtain ⟨done, hstored, hdone⟩ := h.stored
  obtain ⟨-, htodo⟩ := h.final hfinal
  have heq : done = total words := by
    funext w
    rw [← hdone w]
    unfold remaining
    simp [htodo]
  rw [← heq]
  exact hstored

end Invariant

/-! ### The sorted list -/

section Sorting

variable {less : WordCount → WordCount → Bool}

theorem LessCount.strictWeakOrder (h : LessCount less) : StrictWeakOrder less where
  asymm a b hab := by
    rw [h a b] at hab
    rw [← Bool.not_eq_true, h b a]
    rintro (hlt | ⟨heq, hlt⟩)
    · omega
    · exact List.lt_asymm hlt (hab.resolve_left (by omega)).2
  trans a b c hab hbc := by
    rw [← Bool.not_eq_true] at hab hbc ⊢
    rw [h] at hab hbc ⊢
    obtain ⟨hcount, hword⟩ := not_or.mp hab
    obtain ⟨hcount', hword'⟩ := not_or.mp hbc
    rintro (hlt | ⟨heq, hlt⟩)
    · omega
    · have hle : b.word ≤ a.word := List.not_lt.mp fun hlt => hword ⟨by omega, hlt⟩
      have hle' : c.word ≤ b.word := List.not_lt.mp fun hlt => hword' ⟨by omega, hlt⟩
      exact List.not_lt.mpr (List.le_trans hle' hle) hlt

/-- Entries of which none is less are the same. -/
theorem LessCount.antisymm (h : LessCount less) {a b : WordCount} (hab : less a b = false)
    (hba : less b a = false) : a = b := by
  rw [← Bool.not_eq_true, h] at hab hba
  have hcount : a.count = b.count := by omega
  have hword : a.word = b.word := by
    refine List.le_antisymm (List.not_lt.mp fun hlt => ?_) (List.not_lt.mp fun hlt => ?_)
    · exact hba (.inr ⟨hcount.symm, hlt⟩)
    · exact hab (.inr ⟨hcount, hlt⟩)
  obtain ⟨w, n⟩ := a
  obtain ⟨w', n'⟩ := b
  dsimp only at hcount hword
  subst hcount hword
  rfl

/-- Two lists of the same entries are sorted to one list. -/
theorem wordcountSort_eq (h : LessCount less) {l l' : List WordCount} (hperm : l.Perm l') :
    wordcountSort less l = wordcountSort less l' := by
  obtain ⟨out, hout, houtperm, hsorted⟩ := listSort_spec h.strictWeakOrder l
  obtain ⟨out', hout', houtperm', hsorted'⟩ := listSort_spec h.strictWeakOrder l'
  unfold wordcountSort
  rw [hout, hout']
  congr 1
  refine List.Perm.eq_of_pairwise (fun a b _ _ hba hab => h.antisymm hab hba) hsorted hsorted' ?_
  exact houtperm.trans (hperm.trans houtperm'.symm)

end Sorting

/-! ### The end of a run -/

section Ending

variable {ι : Type*} [DecidableEq ι] [Fintype ι]

/-- A call unlocks and the next one begins. -/
def rank : Pc → Nat
  | .unlock => 2
  | .idle => 1
  | _ => 0

/-- The steps to the end of a call. -/
def ahead : Pc → Nat
  | .find cursor => cursor + 3
  | .load _ => 2
  | .store _ _ => 1
  | .push => 1
  | _ => 0

/-- The words to come, then how far the calls are. -/
def ranking (s : State ι) : Nat × Nat × Nat :=
  (∑ i, (s.threads i).todo.length, ∑ i, rank (s.threads i).pc, ∑ i, ahead (s.threads i).pc)

def RankLt : Nat × Nat × Nat → Nat × Nat × Nat → Prop :=
  Prod.Lex (· < ·) (Prod.Lex (· < ·) (· < ·))

theorem rankLt_wf : WellFounded RankLt :=
  Nat.lt_wfRel.wf.prod_lex (Nat.lt_wfRel.wf.prod_lex Nat.lt_wfRel.wf)

/-- A step ranks below. -/
theorem Step.ranking_lt {s s' : State ι} {i : ι} (h : Step s i s') :
    RankLt (ranking s') (ranking s) := by
  have hlower : ∀ t, (t.todo.length < (s.threads i).todo.length ∨
      t.todo.length = (s.threads i).todo.length ∧ (rank t.pc < rank (s.threads i).pc ∨
        rank t.pc = rank (s.threads i).pc ∧ ahead t.pc < ahead (s.threads i).pc)) →
      RankLt (ranking (s.setThread i t)) (ranking s) := by
    intro t hor
    have htodo := sum_setThread s i t fun t => t.todo.length
    have hrank := sum_setThread s i t fun t => rank t.pc
    have hahead := sum_setThread s i t fun t => ahead t.pc
    unfold RankLt ranking
    rcases hor with hlt | ⟨heq, hlt | ⟨heq', hlt⟩⟩
    · exact .left _ _ (by omega)
    · rw [show ∑ j, ((s.setThread i t).threads j).todo.length =
        ∑ j, (s.threads j).todo.length by omega]
      exact .right _ (.left _ _ (by omega))
    · rw [show ∑ j, ((s.setThread i t).threads j).todo.length =
        ∑ j, (s.threads j).todo.length by omega,
        show ∑ j, rank ((s.setThread i t).threads j).pc = ∑ j, rank (s.threads j).pc by omega]
      exact .right _ (.right _ (by omega))
  cases h with
  | lock ht hfree => exact hlower _ (by rw [ht]; simp [rank])
  | next ht he hword => exact hlower _ (by rw [ht]; simp [rank, ahead])
  | found ht he hword => exact hlower _ (by rw [ht]; simp [rank, ahead])
  | missing ht => exact hlower _ (by rw [ht]; simp [rank, ahead])
  | load ht he => exact hlower _ (by rw [ht]; simp [rank, ahead])
  | store ht he => exact hlower _ (by rw [ht]; simp)
  | push ht => exact hlower _ (by rw [ht]; simp)
  | unlock ht => exact hlower _ (by rw [ht]; simp [rank])

/-- All the threads come to their end. -/
theorem exists_final (words : ι → List Word) : ∃ s, Reachable words s ∧ Final s := by
  have hdec : ∀ s s' : State ι, (∃ i, Step s i s') → RankLt (ranking s') (ranking s) := by
    rintro s s' ⟨i, hstep⟩
    exact hstep.ranking_lt
  obtain ⟨s, hreach, hlast⟩ := exists_terminal rankLt_wf _ hdec (start words)
  exact ⟨s, hreach, fun i s' hstep => hlast s' ⟨i, hstep⟩⟩

end Ending

/-- Whatever the number of threads, their words and the order of their steps, the list that is
there in the end has each word that was added once, with the number of calls for it over all
threads as an `int`, and `wordcount_sort` makes the same list of it in all orders of steps. -/
theorem pwords_final {ι : Type*} [DecidableEq ι] [Fintype ι] (words : ι → List Word)
    (less : WordCount → WordCount → Bool) (hless : LessCount less) {s : State ι}
    (hreach : Reachable words s) (hfinal : Final s) :
    (∀ i, (s.threads i).todo = []) ∧
    (s.lst.map WordCount.word).Nodup ∧
    (∀ w, w ∈ s.lst.map WordCount.word ↔ 0 < total words w) ∧
    (∀ e ∈ s.lst, e.count = toInt (total words e.word)) ∧
    (∀ e ∈ s.lst, total words e.word < 2 ^ 31 → e.count = total words e.word) ∧
    (∃ out, wordcountSort less s.lst = some out ∧ out.Perm s.lst ∧ Sorted less out) ∧
    ∀ s', Reachable words s' → Final s' → wordcountSort less s'.lst = wordcountSort less s.lst := by
  have hstored := (Reachable.inv hreach).stored_total hfinal
  have hcount : ∀ e ∈ s.lst, e.count = toInt (total words e.word) :=
    fun e he => hstored.count e (List.mem_reverse.mp he)
  refine ⟨((Reachable.inv hreach).final hfinal).2, ?_, fun w => ?_, hcount, fun e he hlt => ?_,
    listSort_spec hless.strictWeakOrder s.lst, fun s' hreach' hfinal' => ?_⟩
  · unfold State.lst
    rw [List.map_reverse]
    exact List.nodup_reverse.mpr hstored.nodup
  · unfold State.lst
    rw [List.map_reverse, List.mem_reverse]
    exact hstored.mem w
  · rw [hcount e he]
    unfold toInt
    rw [Int.bmod_eq_of_le (by omega) (by omega)]
  · have hstored' := (Reachable.inv hreach').stored_total hfinal'
    refine wordcountSort_eq hless ?_
    exact (List.reverse_perm _).trans ((hstored'.perm hstored).trans (List.reverse_perm _).symm)

/-- Two threads that each add the word `a`. -/
theorem pwords_final_two : ∃ s, Reachable (fun _ : Bool => [[97]]) s ∧ Final s ∧
    [97] ∈ s.lst.map WordCount.word ∧ ∀ e ∈ s.lst, e.word = [97] → e.count = 2 := by
  obtain ⟨s, hreach, hfinal⟩ := exists_final fun _ : Bool => [[97]]
  obtain ⟨-, -, hmem, hcount, -⟩ := pwords_final (fun _ : Bool => [[97]])
    (fun a b => decide (a.count < b.count ∨ a.count = b.count ∧ a.word < b.word))
    (fun a b => decide_eq_true_iff) hreach hfinal
  refine ⟨s, hreach, hfinal, (hmem [97]).mpr (by decide), fun e he hword => ?_⟩
  rw [hcount e he, hword]
  decide

/-- An `int` cannot hold the number of calls from 2147483648 on. -/
theorem not_count_total : ¬ ∀ (words : Unit → List Word) (s : State Unit), Reachable words s →
    Final s → ∀ e ∈ s.lst, e.count = total words e.word := by
  intro hall
  obtain ⟨s, hreach, hfinal⟩ := exists_final fun _ : Unit => List.replicate (2 ^ 31) ([97] : Word)
  have htotal : total (fun _ : Unit => List.replicate (2 ^ 31) ([97] : Word)) [97] = 2 ^ 31 := by
    unfold total
    rw [Finset.univ_unique, Finset.sum_singleton, List.count_replicate_self]
  have hstored := (Reachable.inv hreach).stored_total hfinal
  obtain ⟨e, he, hword⟩ := List.mem_map.mp ((hstored.mem [97]).mpr (by rw [htotal]; decide))
  have hcount := hall _ s hreach hfinal e (List.mem_reverse.mpr he)
  rw [hstored.count e he, hword, htotal] at hcount
  exact absurd hcount (by decide)

end OsTools.Words.Pwords
