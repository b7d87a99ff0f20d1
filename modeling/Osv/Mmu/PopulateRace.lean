import Osv.Mmu.AddressSpace

/-!
# Populating page tables from several threads

**The model.**  map_anon holds vma_list_mutex only inside allocate: the populate that
follows runs unlocked, so that two map_anon calls on different cpus walk the shared upper
levels of the page tables at the same time.  A `MapThread` is one map_anon call: its
allocate, with the unpopulate of what it evacuates, is one step (it runs under the mutex),
and its populate is the operate_page loop of each unit cut into the accesses to shared
entries (`populateStep`): the read at the head of the loop, the write of
allocate_intermediate_level, the read after it, small_page's test and its
compare_exchange.  The table that allocate_intermediate_level fills, and the page that
small_page fills, are the thread's own until they are written; huge_page is one step.  A
`Race` is the vma list, the page tables and the threads, and `raceSystem` lets any thread
that has not returned take its next step.

**What does not hold.**  operate_page installs a missing level by a test and a plain write,
not by compare_exchange.  Two threads that both find an entry empty both allocate a table
and write it; the second write replaces the first table, with every mapping the first
thread has made under it.  Two map_anon calls with mmap_populate on neighbouring pages then
end with the first page unmapped (`populate_race_loses_mapping`), while each order of the
same two calls maps both.
-/

namespace Osv.Mmu

open Transition

/-- Where a thread is in populate(fill, perm).operate: about to take the next unit, at the
head of operate_page's loop at a level, about to write the table that
allocate_intermediate_level allocated, about to read the entry after that write, at the
entry the loop stopped at, or about to compare_exchange the page small_page allocated. -/
inductive PopulatePc where
  | nextUnit
  | descend (huge : Bool) (addr level : ℕ) (ptep : Ptep)
  | install (huge : Bool) (addr level : ℕ) (ptep : Ptep)
  | reread (huge : Bool) (addr level : ℕ) (ptep : Ptep)
  | leaf (huge : Bool) (ptep : Ptep)
  | exchange (ptep : Ptep) (page : ℕ)
  deriving DecidableEq, Repr

/-- A map_anon call: not yet in allocate, populating the units of its range that are left,
or returned. -/
inductive MapThread where
  | call (addr size flags perm : ℕ)
  | populating (perm : ℕ) (units : List (Bool × ℕ)) (pc : PopulatePc)
  | returned
  deriving DecidableEq, Repr

/-- One access of populate to the page tables; none where the walk follows an empty entry. -/
def populateStep (perm : ℕ) (pt : PageTables) :
    List (Bool × ℕ) → PopulatePc → Option (PageTables × MapThread)
  | [], .nextUnit => some (pt, .returned)
  | (huge, a) :: us, .nextUnit =>
      some (pt, .populating perm us (.descend huge a 3 (rootTable, ptIndex a 3)))
  | us, .descend huge a level ptep =>
      if level = 0 ∨ (huge ∧ level = 1) then some (pt, .populating perm us (.leaf huge ptep))
      else
        match pt.read ptep with
        | none => some (pt, .populating perm us (.install huge a level ptep))
        | some pte =>
            if pte.large then
              some ((pt.splitLargePage ptep pte level).1, .populating perm us
                (.descend huge a (level - 1) ((pt.splitLargePage ptep pte level).2,
                  ptIndex a (level - 1))))
            else
              some (pt, .populating perm us
                (.descend huge a (level - 1) (pte.addr, ptIndex a (level - 1))))
  | us, .install huge a level ptep =>
      some ((pt.allocateIntermediateLevel ptep).1, .populating perm us (.reread huge a level ptep))
  | us, .reread huge a level ptep =>
      (pt.read ptep).map fun pte =>
        (pt, .populating perm us (.descend huge a (level - 1) (pte.addr, ptIndex a (level - 1))))
  | us, .leaf false ptep =>
      if (pt.read ptep).isSome then some (pt, .populating perm us .nextUnit)
      else some (pt.allocPage.2, .populating perm us (.exchange ptep pt.allocPage.1))
  | us, .leaf true ptep =>
      ((populate perm).hugePage () pt ptep 0).map fun r => (r.2, .populating perm us .nextUnit)
  | us, .exchange ptep page =>
      some (pt.compareExchange ptep (makePte page false perm), .populating perm us .nextUnit)

/-- The vma list, the page tables and the map_anon calls. -/
structure Race where
  vmas : VmaList
  pt : PageTables
  threads : List MapThread

/-- The next step of thread `i`; none for a thread that has returned. -/
def Race.step (fuel : ℕ) (r : Race) (i : ℕ) : Option Race :=
  match r.threads[i]? with
  | some (.call addr size flags perm) =>
      (mapAnon fuel r.vmas addr size flags perm).bind fun (l, v, dead) =>
        (unpopulateAll r.pt dead).map fun pt =>
          ⟨l, pt, r.threads.set i
            (if flags &&& mmapPopulate = 0 then .returned
            else .populating perm (operateUnits v (alignUp size)) .nextUnit)⟩
  | some (.populating perm us pc) =>
      (populateStep perm r.pt us pc).map fun (pt, t) => ⟨r.vmas, pt, r.threads.set i t⟩
  | _ => none

/-- map_anon(addr, size, flags, perm) by each thread, from the two markers. -/
def Race.init (calls : List (ℕ × ℕ × ℕ × ℕ)) : Race :=
  ⟨VmaList.init, PageTables.init, calls.map fun c => .call c.1 c.2.1 c.2.2.1 c.2.2.2⟩

/-- Any interleaving of the calls' steps. -/
def raceSystem (calls : List (ℕ × ℕ × ℕ × ℕ)) : System Race ℕ where
  init r := r = Race.init calls
  step r i r' := ∃ fuel, r.step fuel i = some r'

/-- A schedule of threads, each step with the fuel its loops need, ends in a reachable
state. -/
theorem Race.reachable_of_run {calls : List (ℕ × ℕ × ℕ × ℕ)} {fuel : ℕ} {is : List ℕ}
    {r : Race} (h : runFrom (Race.step fuel) (Race.init calls) is = some r) :
    Reachable (raceSystem calls) r :=
  Reachable.mono (S := System.ofFun (· = Race.init calls) (Race.step fuel))
    (T := raceSystem calls) (fun _ h => h) (fun _ _ _ h => ⟨fuel, h⟩)
    (reachable_of_runFrom (.init rfl) h)

/-! ## Two populating map_anon calls -/

/-- Two threads map a page each with mmap_fixed and mmap_populate, side by side: the two
pages share every table above the last. -/
def neighbourCalls : List (ℕ × ℕ × ℕ × ℕ) :=
  [(searchStart, 0x1000, mmapFixed ||| mmapPopulate, 3),
    (searchStart + 0x1000, 0x1000, mmapFixed ||| mmapPopulate, 3)]

/-- The first call runs to its end, then the second: the first installs the three tables
under the root, the second finds them. -/
def firstThenSecond : List ℕ := List.replicate 15 0 ++ List.replicate 9 1

/-- The second call runs to its end, then the first. -/
def secondThenFirst : List ℕ := List.replicate 15 1 ++ List.replicate 9 0

/-- Both threads allocate, both find the root entry empty, the first installs its tables and
maps its page, then the second writes its own table over the root entry and maps its page
under it. -/
def racingSchedule : List ℕ :=
  [0, 1, 0, 1, 0, 1] ++ List.replicate 12 0 ++ List.replicate 12 1

theorem populate_race_loses_mapping :
    (∃ r, runFrom (Race.step 8) (Race.init neighbourCalls) firstThenSecond = some r ∧
      r.threads = [.returned, .returned] ∧
      (r.pt.lookup searchStart).isSome ∧ (r.pt.lookup (searchStart + 0x1000)).isSome) ∧
    (∃ r, runFrom (Race.step 8) (Race.init neighbourCalls) secondThenFirst = some r ∧
      r.threads = [.returned, .returned] ∧
      (r.pt.lookup searchStart).isSome ∧ (r.pt.lookup (searchStart + 0x1000)).isSome) ∧
    ∃ r, Reachable (raceSystem neighbourCalls) r ∧ r.threads = [.returned, .returned] ∧
      r.pt.lookup searchStart = none ∧ (r.pt.lookup (searchStart + 0x1000)).isSome := by
  have hfirst : runFrom (Race.step 8) (Race.init neighbourCalls) firstThenSecond = some _ := rfl
  have hsecond : runFrom (Race.step 8) (Race.init neighbourCalls) secondThenFirst = some _ := rfl
  have hrace : runFrom (Race.step 8) (Race.init neighbourCalls) racingSchedule = some _ := rfl
  exact ⟨⟨_, hfirst, rfl, by decide +kernel, by decide +kernel⟩,
    ⟨_, hsecond, rfl, by decide +kernel, by decide +kernel⟩,
    ⟨_, Race.reachable_of_run hrace, rfl, by decide +kernel, by decide +kernel⟩⟩

end Osv.Mmu
