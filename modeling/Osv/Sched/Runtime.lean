import Osv.Lib.IeeeFloat

/-!
# Thread run times and the preemption deadline

The scheduler of `core/sched.cc` orders a cpu's runqueue by each thread's local runtime
`_Rtt`, a `float` (`runtime_t`).  A thread that runs for `t` nanoseconds multiplies the cpu's
normalisation constant `c` by `e ^ (t / tau)` and adds its priority times the growth of `c` to
its runtime (`ran_for`); `hysteresis_run_start` and `hysteresis_run_stop` do the same for
`-thyst` and `thyst`, `add_context_switch_penalty` for the penalty.  When `c` reaches `cmax`
everything is scaled down by `cinitial / cmax`.  `time_until(T)` inverts `ran_for`: the time
after which the thread's runtime would reach `T`, computed with `taulog`, a fast approximation
of `tau * ln` made 1% larger, through `fastlog2`, which reads the bits of its argument.

**The model.**  Every `float` and `double` is an `IeeeFloat.FVal` of `binary32` or
`binary64`, and each operation of the source is the library's, in the source's order and with
its conversions: `s64` operands converted to `float`, and the constant `tau2`, whose product
with `1.01` is a `double`.  `expf` is a parameter: libm is not modelled, and `exp_tau` calls
it only for intervals of 0.2 ms or more.  A thread's runtime is its priority, `_Rtt` and
`_renormalize_count`; a cpu's is `c` and `renormalize_count`.  `int` counters are integers.

**What does not hold** (`time_until_not_positive`).  `fastlog2(1.0f)` is `-2.4e-6`, not `0`,
and stays negative a few units in the last place above `1`.  When the target is close enough
to the thread's runtime that `1 + (T - R) / p / c` rounds to such a value, `time_until` returns
a negative number, neither `-1` nor a positive time: a thread that has just run 100 ns on a
fresh cpu is such a target for a new thread.  Wherever `(T - R) / p / c` is computed as at
most `2 ^ -24`, the sum rounds to exactly `1` and `time_until` returns `-333`
(`timeUntil_of_small`).
-/

namespace Osv.Sched

open IeeeFloat FVal

/-! ## Constants -/

/-- tau = 200_ms, in nanoseconds. -/
def tau : ℤ := 200000000

/-- thyst = 2_ms. -/
def thyst : ℤ := 2000000

/-- context_switch_penalty = 10_us. -/
def contextSwitchPenalty : ℤ := 10000

/-- cmax = 0x1P63. -/
def cmax : FVal := ofInt binary32 (2 ^ 63)

/-- cinitial = 0x1P-63. -/
def cinitial : FVal := ofRat binary32 1 (2 ^ 63)

/-- The float `1.0f`, `runtime_t(1)`. -/
def fone : FVal := ofInt binary32 1

/-- The float `0`. -/
def fzero : FVal := ofInt binary32 0

/-- std::numeric_limits<runtime_t>::infinity(). -/
def finf : FVal := .inf false

/-- std::numeric_limits<s64>::max(). -/
def s64Max : ℤ := 2 ^ 63 - 1

/-! ## exp_tau, fastlog2 and taulog -/

section Exp

variable (expf : FVal → FVal)

/-- exp_tau(t): `1 + t / tau` for intervals below tau / 1000, `expf(t / tau)` otherwise. -/
def expTau (t : ℤ) : FVal :=
  let m : ℤ := tau / 1000
  let invtau := div binary32 fone (ofInt binary32 tau)
  if t < m ∧ t > -m then mul binary32 (ofInt binary32 (tau + t)) invtau
  else expf (mul binary32 (ofInt binary32 t) invtau)

/-- An interval shorter than tau / 1000 does not call expf. -/
theorem expTau_short {t : ℤ} (h₁ : t < tau / 1000) (h₂ : -(tau / 1000) < t) :
    expTau expf t =
      mul binary32 (ofInt binary32 (tau + t)) (div binary32 fone (ofInt binary32 tau)) :=
  if_pos ⟨h₁, h₂⟩

/-- hysteresis_mul_exp_tau. -/
def hysteresisMulExpTau : FVal := expTau expf thyst

/-- hysteresis_div_exp_tau. -/
def hysteresisDivExpTau : FVal := expTau expf (-thyst)

/-- penalty_exp_tau. -/
def penaltyExpTau : FVal := expTau expf contextSwitchPenalty

end Exp

/-- fastlog2(x): the bits of `x` read through a union as an approximation of `log2 x`. -/
def fastlog2 (x : FVal) : FVal :=
  let i := toBits binary32 x
  let mx := ofBits binary32 ((i &&& 0x007FFFFF) ||| 0x3f000000)
  let y := ofInt binary32 i
  let y := mul binary32 y (ofRat binary32 11920928955078125 (10 ^ 23))
  sub binary32
    (sub binary32 (sub binary32 y (ofRat binary32 12422551499 (10 ^ 8)))
      (mul binary32 (ofRat binary32 1498030302 (10 ^ 9)) mx))
    (div binary32 (ofRat binary32 172587999 (10 ^ 8))
      (add binary32 (ofRat binary32 3520887068 (10 ^ 10)) mx))

/-- tau2 = tau * 0.69314718f * 1.01: a float product, made a double by the double `1.01`, and
stored as a float. -/
def tau2 : FVal :=
  convert binary32
    (mul binary64 (convert binary64 (mul binary32 (ofInt binary32 tau)
        (ofRat binary32 69314718 (10 ^ 8))))
      (ofRat binary64 101 100))

/-- taulog(f) = tau2 * fastlog2(f). -/
def taulog (x : FVal) : FVal := mul binary32 tau2 (fastlog2 x)

/-! ## thread_runtime -/

/-- A thread_runtime: `_priority`, `_Rtt` and `_renormalize_count`. -/
structure ThreadRuntime where
  priority : FVal
  rtt : FVal
  renormalizeCount : ℤ
  deriving DecidableEq, Repr

/-- What ran_for reads and writes of the cpu: `c` and `renormalize_count`. -/
structure CpuRuntime where
  c : FVal
  renormalizeCount : ℤ
  deriving DecidableEq, Repr

/-- thread_runtime(priority): no runtime yet, and a global one. -/
def ThreadRuntime.new (priority : FVal) : ThreadRuntime := ⟨priority, fzero, -1⟩

/-- A cpu as its constructor leaves it. -/
def CpuRuntime.init : CpuRuntime := ⟨cinitial, 0⟩

/-- thread::priority_default = 1.0. -/
def priorityDefault : FVal := fone

namespace ThreadRuntime

/-- The renormalisation count of a thread that has no runtime yet follows the cpu's. -/
def catchUp (rt : ThreadRuntime) (cpu : CpuRuntime) : ThreadRuntime :=
  if beq rt.rtt fzero then { rt with renormalizeCount := cpu.renormalizeCount } else rt

/-- `_Rtt += _priority * (cnew - cold)`. -/
def charge (rt : ThreadRuntime) (cold cnew : FVal) : ThreadRuntime :=
  { rt with rtt := add binary32 rt.rtt (mul binary32 rt.priority (sub binary32 cnew cold)) }

/-- `_Rtt *= cinitial / cmax`. -/
def scaleDown (rt : ThreadRuntime) : ThreadRuntime :=
  { rt with rtt := mul binary32 rt.rtt (div binary32 cinitial cmax) }

variable (expf : FVal → FVal)

/-- ran_for(time) of the running thread on `cpu`, with the runqueue of that cpu: none where an
assertion fails. -/
def ranFor (rt : ThreadRuntime) (cpu : CpuRuntime) (queue : List ThreadRuntime) (time : ℤ) :
    Option (ThreadRuntime × CpuRuntime × List ThreadRuntime) :=
  if ¬ lt fzero rt.priority ∨ time < 0 then none
  else
    let rt := rt.catchUp cpu
    let cold := cpu.c
    let cnew := mul binary32 cold (expTau expf time)
    -- an interval that overflows c is ignored
    if beq cnew finf then some (rt, cpu, queue)
    else
      let cpu := { cpu with c := cnew }
      let rt := rt.charge cold cnew
      if rt.renormalizeCount = -1 then none
      else if lt cnew cmax then some (rt, cpu, queue)
      else
        let count := if cpu.renormalizeCount + 1 < 0 then 0 else cpu.renormalizeCount + 1
        some ({ rt.scaleDown with renormalizeCount := count },
          { c := mul binary32 cpu.c (div binary32 cinitial cmax), renormalizeCount := count },
          queue.map fun t =>
            if 0 ≤ t.renormalizeCount then
              { t.scaleDown with renormalizeCount := t.renormalizeCount + 1 }
            else t)

/-- hysteresis_run_start(): ran_for(-thyst) without its checks; a thread of infinite priority
gets an infinite runtime. -/
def hysteresisRunStart (rt : ThreadRuntime) (cpu : CpuRuntime) :
    ThreadRuntime × CpuRuntime :=
  let rt := rt.catchUp cpu
  let cnew := mul binary32 cpu.c (hysteresisDivExpTau expf)
  (if beq rt.priority finf then { rt with rtt := finf } else rt.charge cpu.c cnew,
    { cpu with c := cnew })

/-- hysteresis_run_stop(): ran_for(thyst) without its checks. -/
def hysteresisRunStop (rt : ThreadRuntime) (cpu : CpuRuntime) : ThreadRuntime × CpuRuntime :=
  let rt := rt.catchUp cpu
  let cnew := mul binary32 cpu.c (hysteresisMulExpTau expf)
  (rt.charge cpu.c cnew, { cpu with c := cnew })

/-- add_context_switch_penalty(). -/
def addContextSwitchPenalty (rt : ThreadRuntime) (cpu : CpuRuntime) :
    ThreadRuntime × CpuRuntime :=
  let cnew := mul binary32 cpu.c (penaltyExpTau expf)
  (rt.charge cpu.c cnew, { cpu with c := cnew })

/-- export_runtime(): the runtime made global. -/
def exportRuntime (rt : ThreadRuntime) (cpu : CpuRuntime) : ThreadRuntime :=
  { rt with rtt := div binary32 rt.rtt cpu.c, renormalizeCount := -1 }

/-- update_after_sleep(): the runtime brought to the cpu's renormalisation. -/
def updateAfterSleep (rt : ThreadRuntime) (cpu : CpuRuntime) : ThreadRuntime :=
  if rt.renormalizeCount = cpu.renormalizeCount then rt
  else
    let rtt :=
      if rt.renormalizeCount = -1 then mul binary32 rt.rtt cpu.c
      else if rt.renormalizeCount + 1 = cpu.renormalizeCount then
        mul binary32 rt.rtt (div binary32 cinitial cmax)
      else if !beq rt.rtt finf then fzero
      else rt.rtt
    { rt with rtt := rtt, renormalizeCount := cpu.renormalizeCount }

/-- The argument of taulog in time_until(target). -/
def growth (rt : ThreadRuntime) (cpu : CpuRuntime) (target : FVal) : FVal :=
  add binary32 fone (div binary32 (div binary32 (sub binary32 target rt.rtt) rt.priority) cpu.c)

/-- time_until(target): -1 for an infinite priority or target, or a time too long for s64;
none where the conversion to s64 is undefined. -/
def timeUntil (rt : ThreadRuntime) (cpu : CpuRuntime) (target : FVal) : Option ℤ :=
  if beq rt.priority finf ∨ beq target finf then some (-1)
  else
    let ret := taulog (rt.growth cpu target)
    if lt (ofInt binary32 s64Max) ret then some (-1)
    else
      match truncate ret with
      | some d => if -2 ^ 63 ≤ d then some d else none
      | none => none

end ThreadRuntime

/-! ## The deadline near a target -/

open ThreadRuntime

/-- **Where the growth rounds to one, time_until is negative.**  Whatever the runtimes and the
cpu, when `1 + (T - R) / p / c` rounds to `1.0f`, time_until(T) returns `-333`: taulog(1.0f)
is `tau2` times `fastlog2(1.0f) = -2.4e-6`. -/
theorem timeUntil_of_sum_one {rt : ThreadRuntime} {cpu : CpuRuntime} {target : FVal}
    (hp : beq rt.priority finf = false) (ht : beq target finf = false)
    (h : rt.growth cpu target = fone) : rt.timeUntil cpu target = some (-333) := by
  unfold timeUntil
  rw [if_neg (by simp [hp, ht]), h]
  decide

/-- ran_for reads expf only through exp_tau of its interval. -/
theorem ranFor_congr {expf expf' : FVal → FVal} {time : ℤ}
    (h : expTau expf time = expTau expf' time)
    (rt : ThreadRuntime) (cpu : CpuRuntime) (queue : List ThreadRuntime) :
    rt.ranFor expf cpu queue time = rt.ranFor expf' cpu queue time := by
  simp only [ranFor, h]

/-- **A target within `2 ^ -24` of the runtime gives a negative deadline.**  Whatever the
runtimes and the cpu, when `(T - R) / p / c` is computed as a value from `0` to `2 ^ -24`,
`1` plus it rounds to `1.0f` and time_until(T) returns `-333`. -/
theorem timeUntil_of_small {rt : ThreadRuntime} {cpu : CpuRuntime} {target : FVal} {m e : ℤ}
    (hp : beq rt.priority finf = false) (ht : beq target finf = false)
    (hq : div binary32 (div binary32 (sub binary32 target rt.rtt) rt.priority) cpu.c = .fin m e)
    (hm : 0 ≤ m) (hsmall : m * 2 ^ 24 ≤ 2 ^ (-e).toNat) : rt.timeUntil cpu target = some (-333) := by
  have hone : fone = .fin (2 ^ 23) (-23) := by decide
  refine timeUntil_of_sum_one hp ht ?_
  rw [growth, hq, hone]
  exact add_one_of_small hm hsmall

/-- A new thread of the default priority on a fresh cpu, whose `c` is `2 ^ -63`, and the target
`2 ^ -100` just above its runtime `0`: the quotient is `2 ^ -37`, and `time_until` returns
`-333`. -/
theorem timeUntil_of_small_fresh :
    beq priorityDefault finf = false ∧ beq (ofRat binary32 1 (2 ^ 100)) finf = false ∧
      div binary32 (div binary32 (sub binary32 (ofRat binary32 1 (2 ^ 100)) fzero) priorityDefault)
        cinitial = .fin 8388608 (-60) ∧
      (ThreadRuntime.new priorityDefault).timeUntil CpuRuntime.init (ofRat binary32 1 (2 ^ 100)) =
        some (-333) :=
  ⟨by decide, by decide, by decide,
    timeUntil_of_small (m := 8388608) (e := -60) (by decide) (by decide) (by decide) (by decide)
      (by decide)⟩

/-- A new thread of the default priority that runs for 100 ns on a fresh cpu: `c` grows by
four units in the last place, and so does the thread's runtime from zero. -/
theorem ranFor_new_100 (expf : FVal → FVal) :
    (ThreadRuntime.new priorityDefault).ranFor expf CpuRuntime.init [] 100 =
      some (⟨fone, .fin 8388608 (-107), 0⟩, ⟨.fin 8388612 (-86), 0⟩, []) := by
  have hshort : expTau expf 100 = expTau id 100 := by
    rw [expTau_short expf (by decide) (by decide), expTau_short id (by decide) (by decide)]
  rw [ranFor_congr hshort]
  decide

/-- **time_until is not positive for a target just above.**  On a fresh cpu, after a thread
of the default priority has run for 100 ns, the time until a new thread of the default
priority reaches its runtime is `-300`: neither `-1` nor a positive time, though the cpu's
`c` is between `cinitial` and `cmax`, the priority is finite and positive, and the new thread's
runtime is below the target. -/
theorem time_until_not_positive :
    ∀ expf : FVal → FVal, ∃ a cpu d,
      (ThreadRuntime.new priorityDefault).ranFor expf CpuRuntime.init [] 100 =
        some (a, cpu, []) ∧
      ¬ lt cpu.c cinitial ∧ lt cpu.c cmax ∧ lt fzero priorityDefault ∧
      lt (ThreadRuntime.new priorityDefault).rtt a.rtt ∧
      (ThreadRuntime.new priorityDefault).timeUntil cpu a.rtt = some d ∧ d ≤ 0 ∧ d ≠ -1 :=
  fun expf => ⟨_, _, -300, ranFor_new_100 expf, by decide, by decide, by decide, by decide,
    by decide, by decide, by decide⟩

end Osv.Sched
