import DnsRelay.Lru.Invariant

/-!
# The self test of `cache.c`

`test_normal` walks the list forwards from the head node and backwards again, counts both
ways and compares the ends with `first` and `last`. Whatever calls have been made, and
whichever of their defects they have met, it finds nothing wrong.
-/

namespace DnsRelay.Lru

open DnsRelay.Lib.LinkedList DnsRelay.Lib.Machine Function

/-- The three exits of `test_normal`, and the use of `last` before it has been assigned. -/
inductive TestError
  | error1
  | error2
  | error3
  | unassigned
  deriving DecidableEq

/-- The first loop: `record`, `last` and `count`, with the rounds that `length` leaves. -/
def walkForward (rs : Records) : ℕ → ℤ → Option ℤ → ℕ → ℤ × Option ℤ × ℕ
  | 0, record, last, count => (record, last, count)
  | rounds + 1, record, last, count =>
      if rs.next record ≠ -1 then
        walkForward rs rounds (rs.next record) (some (rs.next record)) (count + 1)
      else (record, last, count)

/-- The second loop: `count`, with the rounds that `length` leaves. -/
def walkBack (rs : Records) : ℕ → ℤ → ℕ → ℕ
  | 0, _, count => count
  | rounds + 1, record, count =>
      if 0 ≤ rs.last record then walkBack rs rounds (rs.last record) (count + 1) else count

/-- `test_normal`. -/
def testNormal (c : Cache) : Except TestError Unit :=
  let (record, last, count) := walkForward c.records c.length 0 none 0
  if count ≠ c.length ∨ 0 < c.records.next record then .error .error1
  else if walkBack c.records c.length record 0 ≠ c.length then .error .error2
  else if 1 < c.length then
    if c.first ≠ c.records.next 0 then .error .error3
    else
      match last with
      | none => .error .unassigned
      | some last => if c.last ≠ last then .error .error3 else .ok ()
  else .ok ()

variable {c : Cache} {l : List ℤ} {rs : Records} {h : ℤ}

/-- On a linked list the first loop comes to the last node. -/
theorem walkForward_linked (hl : Linked rs.next rs.last (-1) h l) (hpos : ∀ x ∈ l, 0 < x)
    (last : Option ℤ) (count : ℕ) :
    walkForward rs l.length h last count =
      ((h :: l).getLast (by simp), l.getLast?.or last, count + l.length) := by
  induction l generalizing h last count with
  | nil => rfl
  | cons s l ih =>
      obtain ⟨hnext, -, hrest⟩ := linked_cons.mp hl
      have hs : s ≠ -1 := by
        have := hpos s (by simp)
        omega
      have hwalk := ih hrest (fun x hx => hpos x (List.mem_cons_of_mem _ hx)) (some s)
        (count + 1)
      simp only [List.length_cons, walkForward, hnext, ne_eq, hs, not_false_eq_true, if_true,
        hwalk, List.getLast_cons_cons, Prod.mk.injEq, true_and]
      refine ⟨?_, by omega⟩
      cases l with
      | nil => rfl
      | cons t l => simp [List.getLast?_cons]

/-- From the last node of a front part the second loop comes back to the header. -/
theorem walkBack_linked {b : List ℤ} (hl : Linked rs.next rs.last (-1) h (l ++ b))
    (hpos : ∀ x ∈ h :: l, 0 ≤ x) (count : ℕ) :
    walkBack rs l.length ((h :: l).getLast (by simp)) count = count + l.length := by
  induction l using List.reverseRecOn generalizing b count with
  | nil => rfl
  | append_singleton l s ih =>
      rw [List.append_assoc, List.singleton_append] at hl
      have hfront : ∀ x ∈ h :: l, 0 ≤ x := by
        intro x hx
        apply hpos
        rw [← List.cons_append]
        exact List.mem_append_left _ hx
      have hprev : rs.last s = (h :: l).getLast (by simp) := hl.prev_eq
      have hback : 0 ≤ rs.last s := hfront _ hl.prev_mem
      have hend : (h :: (l ++ [s])).getLast (by simp) = s := by simp
      rw [List.length_append, List.length_singleton, walkBack, hend, if_pos hback, hprev,
        ih hl hfront]
      omega

/-- The test accepts every cache whose list is as the invariant says. -/
theorem Inv.testNormal (h : Inv c l) : testNormal c = .ok () := by
  have hpos : ∀ x ∈ l, 0 < x := fun x hx => h.used_pos hx
  have hnonneg : ∀ x ∈ 0 :: l, 0 ≤ x := by
    intro x hx
    rcases List.mem_cons.mp hx with rfl | hx
    · exact le_rfl
    · exact (hpos x hx).le
  have hforward := walkForward_linked h.linked hpos none 0
  have hend : c.records.next ((0 :: l).getLast (by simp)) = -1 := h.linked.next_last
  have hback := walkBack_linked (b := []) (by simpa using h.linked) hnonneg 0
  rw [zero_add] at hforward hback
  simp only [Lru.testNormal, h.length_eq, hforward, hend, hback, ne_eq, not_true_eq_false,
    false_or, if_false, Int.reduceNeg, Int.reduceLT]
  split
  next hlen =>
    cases l with
    | nil => simp at hlen
    | cons s l =>
        have hfirst : c.first = s := h.first_eq s rfl
        have hnext : c.records.next 0 = s := (linked_cons.mp h.linked).1
        have hlast : c.last = (s :: l).getLast (by simp) :=
          h.last_eq _ (List.getLast?_eq_some_getLast (by simp))
        rw [if_neg (by rw [hfirst, hnext]; exact not_not.mpr rfl),
          List.getLast?_eq_some_getLast (by simp)]
        simp [hlast]
  next => rfl

/-- Whatever calls a cache of any size has served, as long as they returned, `test_normal`
accepts it. -/
theorem testNormal_accepts (recordLength maxSize : ℤ) (scaled : ℕ) (ops : List CacheOp)
    (results : List CacheResult) (c : Cache)
    (h : runOps (initCache recordLength maxSize scaled) ops = .ok (c, results)) :
    testNormal c = .ok () := by
  have hinv : ∃ l, Inv c l := run_invariant (fun c => ∃ l, Inv c l)
    (fun op _ c c' r hc hexec => by
      obtain ⟨l, hc⟩ := hc
      exact (exec_inv hc hexec).2) ⟨[], initCache_inv_any⟩ h
  obtain ⟨l, hinv⟩ := hinv
  exact hinv.testNormal

end DnsRelay.Lru
