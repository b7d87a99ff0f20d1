import Mathlib

/-!
# The console line discipline

`console_poll` (`drivers/console.cc`) is the line discipline thread: for each character it
reads from the console it maps `'\r'` to `'\n'` under `ICRNL`, sends `SIGINT` or `SIGQUIT` for
the `VINTR` and `VQUIT` characters under `ISIG`, and then either edits a line (`ICANON`) or
hands the character to `console_queue` at once.  In canonical mode `line_buffer` holds the line
being typed: `VERASE` removes its last character, and `'\n'` moves the line, with the newline,
to `console_queue`.  A character is echoed under `ECHO`, as `^X` when it is a control character
and `ECHOCTL` is set.  `console_read` waits for `console_queue` and copies from its front into
the caller's iovecs; `console_ioctl` gets and sets the `termios` with `TCGETS` and `TCSETS`.

**The model.**  A `char` is an `Int8`, as on x86-64: `c < ' '` and `c == tio.c_cc[VINTR]`
compare it as a signed value, the second with the unsigned `cc_t` of the array.  The console
state is the `termios`, `line_buffer`, `console_queue`, everything written to the console and
the signals sent.  `console_poll` is `consolePollStep` for each character; the `readers` it
wakes are not modelled, and a read on an empty queue waits (`none`).  Of `termios` the model
keeps the fields these functions read: `c_iflag`, `c_lflag` and the three `c_cc` entries.

**What holds.**  Whatever the echo flags, the queue and the line buffer follow the line
editing the flags ask for (`consolePollStep_edit`, `consolePoll_edit`): in canonical mode the
queue receives whole edited lines, each when its newline arrives, and in non-canonical mode
every character that is not a signal at once.  `console_read` hands out the front of the
queue, never more than `uio_resid` (`consoleRead_eq`).

**What does not** (`console_echo_ignores_echo_flags`).  The newline and erase branches test
`tio.c_lflag && ECHO` and `tio.c_lflag && ECHOE`, a logical and with a non-zero constant, which
holds for every `c_lflag` with `ICANON` set: a newline is echoed and an erase writes the visual
erase sequence with `ECHO` or `ECHOE` clear.
-/

namespace Osv.Drivers

/-! ## termios -/

/-- `ICRNL` -/
def ICRNL : UInt32 := 0o400
/-- `ISIG` -/
def ISIG : UInt32 := 0o1
/-- `ICANON` -/
def ICANON : UInt32 := 0o2
/-- `ECHO` -/
def ECHO : UInt32 := 0o10
/-- `ECHOE` -/
def ECHOE : UInt32 := 0o20
/-- `ECHOCTL` -/
def ECHOCTL : UInt32 := 0o1000

/-- The fields of a `struct termios` that the console reads: `c_iflag`, `c_lflag`, and
`c_cc[VINTR]`, `c_cc[VQUIT]` and `c_cc[VERASE]`. -/
structure Termios where
  iflag : UInt32
  lflag : UInt32
  vintr : UInt8
  vquit : UInt8
  verase : UInt8
  deriving DecidableEq, Repr

/-- The initial `tio`. -/
def tio : Termios :=
  ⟨ICRNL, ECHO ||| ECHOCTL ||| ICANON ||| ECHOE ||| ISIG, 3, 0o34, 0o177⟩

/-- `a && b` in C: both non-zero. -/
def logicalAnd (a b : UInt32) : Bool := a ≠ 0 && b ≠ 0

/-- `c == tio.c_cc[i]`: the `char` and the `cc_t` compared as `int`s. -/
def isCc (c : Int8) (cc : UInt8) : Bool := c.toInt = (cc.toNat : ℤ)

/-- `isctrl(c)`. -/
def isctrl (c : Int8) : Bool := (c < 32 && c ≠ 9 && c ≠ 10) || c = 127

/-- `'\r'` read under `ICRNL` is `'\n'`. -/
def icrnl (t : Termios) (c : Int8) : Int8 := if c = 13 && t.iflag &&& ICRNL ≠ 0 then 10 else c

/-- `eraser`: back, space, back, twice. -/
def eraser : List Int8 := [8, 32, 8, 8, 32, 8]

/-- The signals `console_poll` sends to process 0. -/
inductive Signal
  | SIGINT
  | SIGQUIT
  deriving DecidableEq, Repr

/-- The console: `tio`, `line_buffer`, `console_queue` (front first), what has been written to
the console, and the signals sent. -/
structure Console where
  tio : Termios
  lineBuffer : List Int8
  queue : List Int8
  out : List Int8
  signals : List Signal
  deriving DecidableEq, Repr

namespace Console

/-- The console at boot. -/
def init : Console := ⟨Drivers.tio, [], [], [], []⟩

/-! ## console_poll -/

/-- The echo at the end of an iteration of `console_poll`. -/
def echo (s : Console) (c : Int8) : Console :=
  if s.tio.lflag &&& ECHO ≠ 0 then
    if isctrl c && s.tio.lflag &&& ECHOCTL ≠ 0 then { s with out := s.out ++ [94, c ^^^ 64] }
    else { s with out := s.out ++ [c] }
  else s

/-- What the erase branch writes for the erased character `e`. -/
def eraseEcho (lflag : UInt32) (e : Int8) : List Int8 :=
  if logicalAnd lflag ECHOE then (if isctrl e then eraser.take 6 else eraser.take 3)
  else (if isctrl e then (eraser.drop 2).take 2 else eraser.take 1)

/-- The rest of an iteration of `console_poll`, for a character `c` that sends no signal:
canonical or non-canonical mode, and the echo. -/
def lineStep (s : Console) (c : Int8) : Console :=
  if s.tio.lflag &&& ICANON ≠ 0 then
    if c = 10 then
      -- already echoed
      { s with
        out := if logicalAnd s.tio.lflag ECHO then s.out ++ [c] else s.out
        lineBuffer := []
        queue := s.queue ++ (s.lineBuffer ++ [10]) }
    else if isCc c s.tio.verase then
      match s.lineBuffer.getLast? with
      | none => s
      | some e =>
          let s := { s with lineBuffer := s.lineBuffer.dropLast }
          if logicalAnd s.tio.lflag ECHO then { s with out := s.out ++ eraseEcho s.tio.lflag e }
          else echo s c
    else echo { s with lineBuffer := s.lineBuffer ++ [c] } c
  else echo { s with queue := s.queue ++ [c] } c

/-- One iteration of `console_poll`, for the character `c0` read from the console. -/
def consolePollStep (s : Console) (c0 : Int8) : Console :=
  let c := icrnl s.tio c0
  if s.tio.lflag &&& ISIG ≠ 0 && isCc c s.tio.vintr then { s with signals := s.signals ++ [.SIGINT] }
  else if s.tio.lflag &&& ISIG ≠ 0 && isCc c s.tio.vquit then
    { s with signals := s.signals ++ [.SIGQUIT] }
  else s.lineStep c

/-- `console_poll` over the characters `cs`. -/
def consolePoll (s : Console) (cs : List Int8) : Console := cs.foldl consolePollStep s

/-! ## console_read, console_write, console_ioctl -/

/-- The loop of `console_read` over the iovecs of lengths `iovs`, from `uio_resid`: the bytes it
copies and the queue after. -/
def readLoop : ℕ → List ℕ → List Int8 → List Int8 × List Int8
  | _, [], q => ([], q)
  | resid, len :: iovs, q =>
      if resid = 0 ∨ q = [] then ([], q)
      else
        let n := min q.length len
        if n = len then
          let r := readLoop (resid - n) iovs (q.drop n)
          (q.take n ++ r.1, r.2)
        -- the iovec is not full, so the queue is empty and the loop ends
        else (q.take n, q.drop n)

end Console

/-- A `struct uio` for a read: the lengths of its iovecs and `uio_resid`, their sum. -/
structure Uio where
  iovs : List ℕ
  resid : ℕ
  resid_eq : resid = iovs.sum

namespace Console

/-- `console_read(uio)`: the bytes copied and the console after; `none` while the queue is
empty, where it waits. -/
def consoleRead (s : Console) (uio : Uio) : Option (List Int8 × Console) :=
  if s.queue = [] then none
  else
    let r := readLoop uio.resid uio.iovs s.queue
    some (r.1, { s with queue := r.2 })

/-- `console_write(uio)`: the bytes of each iovec, written in order. -/
def consoleWrite (s : Console) (iovs : List (List Int8)) : Console :=
  { s with out := s.out ++ iovs.flatten }

/-- The requests `console_ioctl` knows, and any other. -/
inductive IoctlRequest
  | TCGETS
  | TCSETS (t : Termios)
  | FIONREAD
  | other (request : ℕ)

/-- What `console_ioctl` stores at `arg`. -/
inductive IoctlArg
  | termios (t : Termios)
  | count (n : ℕ)
  | unchanged

/-- `ENOTTY` -/
def ENOTTY : ℤ := 25

/-- `console_ioctl(request, arg)`: the return value, what it stores at `arg`, and the console. -/
def consoleIoctl (s : Console) : IoctlRequest → ℤ × IoctlArg × Console
  | .TCGETS => (0, .termios s.tio, s)
  | .TCSETS t => (0, .unchanged, { s with tio := t })
  | .FIONREAD => (0, .count s.queue.length, s)
  | .other _ => (-ENOTTY, .unchanged, s)

end Console

/-! ## The line editing -/

/-- Whether `c` sends a signal under `t`. -/
def isSignal (t : Termios) (c : Int8) : Bool :=
  t.lflag &&& ISIG ≠ 0 && (isCc c t.vintr || isCc c t.vquit)

/-- The line editing the flags ask for, for a character `c` that sends no signal:
`console_queue` and `line_buffer` after it.  In canonical mode a newline releases the line,
`VERASE` takes back its last character and any other character is added to it; otherwise the
character goes to the queue. -/
def editChar (t : Termios) (qb : List Int8 × List Int8) (c : Int8) : List Int8 × List Int8 :=
  if t.lflag &&& ICANON ≠ 0 then
    if c = 10 then (qb.1 ++ (qb.2 ++ [10]), [])
    else if isCc c t.verase then (qb.1, qb.2.dropLast)
    else (qb.1, qb.2 ++ [c])
  else (qb.1 ++ [c], qb.2)

/-- The line editing for the character `c0` as read: mapped by `ICRNL`, and dropped when it
sends a signal. -/
def edit (t : Termios) (qb : List Int8 × List Int8) (c0 : Int8) : List Int8 × List Int8 :=
  if isSignal t (icrnl t c0) then qb else editChar t qb (icrnl t c0)

namespace Console

variable (s : Console) (c : Int8)

@[simp] theorem echo_tio : (s.echo c).tio = s.tio := by
  unfold echo
  split_ifs <;> rfl

@[simp] theorem echo_lineBuffer : (s.echo c).lineBuffer = s.lineBuffer := by
  unfold echo
  split_ifs <;> rfl

@[simp] theorem echo_queue : (s.echo c).queue = s.queue := by
  unfold echo
  split_ifs <;> rfl

theorem lineStep_edit :
    (s.lineStep c).tio = s.tio ∧
      ((s.lineStep c).queue, (s.lineStep c).lineBuffer) = editChar s.tio (s.queue, s.lineBuffer) c := by
  unfold lineStep editChar
  by_cases hcanon : s.tio.lflag &&& ICANON ≠ 0
  · rw [if_pos hcanon, if_pos hcanon]
    by_cases hnl : c = 10
    · rw [if_pos hnl, if_pos hnl]
      exact ⟨rfl, rfl⟩
    rw [if_neg hnl, if_neg hnl]
    by_cases herase : isCc c s.tio.verase = true
    · rw [if_pos herase, if_pos herase]
      -- the erase branch echoes one way or the other, and changes only the line
      cases hlast : s.lineBuffer.getLast? with
      | none => simp [List.getLast?_eq_none_iff.mp hlast]
      | some e =>
          dsimp only
          split_ifs <;> simp
    · rw [if_neg herase, if_neg herase]
      simp
  · rw [if_neg hcanon, if_neg hcanon]
    simp

theorem isSignal_eq :
    isSignal s.tio (icrnl s.tio c) =
      ((s.tio.lflag &&& ISIG ≠ 0 && isCc (icrnl s.tio c) s.tio.vintr) ||
        (s.tio.lflag &&& ISIG ≠ 0 && isCc (icrnl s.tio c) s.tio.vquit)) := by
  rw [isSignal, Bool.and_or_distrib_left]

/-- A character that sends no signal goes on to the line discipline proper. -/
theorem consolePollStep_of_not_signal (hsig : isSignal s.tio (icrnl s.tio c) = false) :
    s.consolePollStep c = s.lineStep (icrnl s.tio c) := by
  rw [isSignal_eq, Bool.or_eq_false_iff] at hsig
  simp only [consolePollStep]
  rw [if_neg (by rw [hsig.1]; decide), if_neg (by rw [hsig.2]; decide)]

/-- A signal character is dropped: only the signals sent change. -/
theorem consolePollStep_of_signal (hsig : isSignal s.tio (icrnl s.tio c) = true) :
    (s.consolePollStep c).tio = s.tio ∧ (s.consolePollStep c).queue = s.queue ∧
      (s.consolePollStep c).lineBuffer = s.lineBuffer := by
  simp only [consolePollStep]
  by_cases hint : (s.tio.lflag &&& ISIG ≠ 0 && isCc (icrnl s.tio c) s.tio.vintr) = true
  · rw [if_pos hint]
    exact ⟨rfl, rfl, rfl⟩
  · have hquit : (s.tio.lflag &&& ISIG ≠ 0 && isCc (icrnl s.tio c) s.tio.vquit) = true := by
      rw [isSignal_eq, Bool.eq_false_iff.mpr hint, Bool.false_or] at hsig
      exact hsig
    rw [if_neg hint, if_pos hquit]
    exact ⟨rfl, rfl, rfl⟩

/-- **One iteration of `console_poll` edits as the flags ask**, whatever it echoes, and keeps
the `termios`. -/
theorem consolePollStep_edit :
    (s.consolePollStep c).tio = s.tio ∧
      ((s.consolePollStep c).queue, (s.consolePollStep c).lineBuffer) =
        edit s.tio (s.queue, s.lineBuffer) c := by
  cases hsig : isSignal s.tio (icrnl s.tio c) with
  | true =>
      obtain ⟨htio, hq, hb⟩ := consolePollStep_of_signal s c hsig
      rw [edit.eq_def, if_pos hsig, hq, hb]
      exact ⟨htio, rfl⟩
  | false =>
      rw [consolePollStep_of_not_signal s c hsig, edit.eq_def, if_neg (by rw [hsig]; decide)]
      exact lineStep_edit s _

/-- `console_poll` over any input edits as the flags ask. -/
theorem consolePoll_edit (cs : List Int8) :
    (s.consolePoll cs).tio = s.tio ∧
      ((s.consolePoll cs).queue, (s.consolePoll cs).lineBuffer) =
        cs.foldl (edit s.tio) (s.queue, s.lineBuffer) := by
  induction cs generalizing s with
  | nil => exact ⟨rfl, rfl⟩
  | cons c cs ih =>
      obtain ⟨htio, hqb⟩ := consolePollStep_edit s c
      obtain ⟨htio', hqb'⟩ := ih (s.consolePollStep c)
      refine ⟨htio'.trans htio, ?_⟩
      rw [consolePoll, List.foldl_cons, List.foldl_cons, ← hqb, ← htio]
      exact hqb'

end Console

/-! ## Lines -/

/-- The line `l` typed after the line buffer `b`: each `VERASE` takes back the last character,
and signal characters are dropped. -/
def editLine (t : Termios) (b l : List Int8) : List Int8 :=
  l.foldl (fun b c =>
    if isSignal t (icrnl t c) then b
    else if isCc (icrnl t c) t.verase then b.dropLast else b ++ [icrnl t c]) b

/-- The lines released from the line buffer `b` by the lines `ls`, each edited and ended by a
newline; the first one continues `b`. -/
def released (t : Termios) (b : List Int8) : List (List Int8) → List Int8
  | [] => []
  | l :: ls => editLine t b l ++ [10] ++ released t [] ls

section Lines

variable {t : Termios} (hcanon : t.lflag &&& ICANON ≠ 0)
include hcanon

/-- Characters that end no line only edit the line buffer. -/
theorem foldl_edit_line (q : List Int8) :
    ∀ {b l : List Int8}, (∀ c ∈ l, icrnl t c ≠ 10) → l.foldl (edit t) (q, b) = (q, editLine t b l)
  | _, [], _ => rfl
  | b, c :: l, hl => by
      have ih : ∀ b', l.foldl (edit t) (q, b') = (q, editLine t b' l) := fun _ =>
        foldl_edit_line q fun c' hc' => hl c' (List.mem_cons_of_mem c hc')
      have hstep : edit t (q, b) c = (q,
          if isSignal t (icrnl t c) then b
          else if isCc (icrnl t c) t.verase then b.dropLast else b ++ [icrnl t c]) := by
        have hc := hl c List.mem_cons_self
        unfold edit editChar
        split_ifs <;> rfl
      rw [List.foldl_cons, editLine, List.foldl_cons, hstep]
      exact ih _

/-- **Canonical mode releases whole edited lines.**  Lines `ls` ended by a newline character
`nl`, and then a last line `p` without one, put into the queue the edited lines of `ls` with
their newlines, and leave the edited `p` in the line buffer. -/
theorem foldl_edit_lines {nl : Int8} (hnl : icrnl t nl = 10) (hsig : isSignal t 10 = false)
    (p : List Int8) (hp : ∀ c ∈ p, icrnl t c ≠ 10) :
    ∀ (ls : List (List Int8)) (q b : List Int8), (∀ l ∈ ls, ∀ c ∈ l, icrnl t c ≠ 10) →
      (ls.flatMap (· ++ [nl]) ++ p).foldl (edit t) (q, b) =
        (q ++ released t b ls, editLine t (if ls = [] then b else []) p)
  | [], q, b, _ => by
      rw [List.flatMap_nil, List.nil_append, foldl_edit_line hcanon q hp, released, List.append_nil,
        if_pos rfl]
  | l :: ls, q, b, hls => by
      -- the first line is edited from `b` and released by its newline
      have hline : (l ++ [nl]).foldl (edit t) (q, b) = (q ++ (editLine t b l ++ [10]), []) := by
        rw [List.foldl_append, foldl_edit_line hcanon q (hls l List.mem_cons_self), List.foldl_cons,
          List.foldl_nil, edit.eq_def, hnl, if_neg (by rw [hsig]; decide), editChar, if_pos hcanon, if_pos rfl]
      rw [List.flatMap_cons, List.append_assoc, List.foldl_append, hline,
        foldl_edit_lines hnl hsig p hp ls _ [] fun l' hl' => hls l' (List.mem_cons_of_mem l hl'), released,
        if_neg (List.cons_ne_nil l ls)]
      simp [List.append_assoc]

end Lines

/-- **Non-canonical mode hands every character that is not a signal to the queue at once.** -/
theorem foldl_edit_raw {t : Termios} (hraw : ¬ t.lflag &&& ICANON ≠ 0) :
    ∀ (cs : List Int8) (q b : List Int8),
      cs.foldl (edit t) (q, b) = (q ++ (cs.map (icrnl t)).filter (fun c => !isSignal t c), b)
  | [], q, b => by simp
  | c :: cs, q, b => by
      rw [List.foldl_cons, List.map_cons, List.filter_cons]
      by_cases hsig : isSignal t (icrnl t c) = true
      · rw [edit.eq_def, if_pos hsig, foldl_edit_raw hraw cs q b, if_neg (by simp [hsig])]
      · rw [edit.eq_def, if_neg hsig, editChar, if_neg hraw, foldl_edit_raw hraw cs, if_pos (by simpa using hsig),
          List.append_assoc, List.singleton_append]

namespace Console

/-- `console_poll` in canonical mode: the queue gets the edited lines of the input, the line
buffer keeps the edited last line. -/
theorem consolePoll_lines (s : Console) (hcanon : s.tio.lflag &&& ICANON ≠ 0) {nl : Int8}
    (hnl : icrnl s.tio nl = 10) (hsig : isSignal s.tio 10 = false) (ls : List (List Int8))
    (hls : ∀ l ∈ ls, ∀ c ∈ l, icrnl s.tio c ≠ 10) (p : List Int8) (hp : ∀ c ∈ p, icrnl s.tio c ≠ 10) :
    (s.consolePoll (ls.flatMap (· ++ [nl]) ++ p)).queue = s.queue ++ released s.tio s.lineBuffer ls ∧
      (s.consolePoll (ls.flatMap (· ++ [nl]) ++ p)).lineBuffer =
        editLine s.tio (if ls = [] then s.lineBuffer else []) p := by
  have h := (s.consolePoll_edit (ls.flatMap (· ++ [nl]) ++ p)).2
  rw [foldl_edit_lines hcanon hnl hsig p hp ls _ _ hls, Prod.mk.injEq] at h
  exact h

/-- A line begun with `a` and ended by `b`, an erase, `c` and a return, then a line `d` and a
return, then `e`: the queue gets `ac` and `d`, each with its newline, and `e` stays in the line
buffer. -/
theorem consolePoll_lines_typed :
    Drivers.tio.lflag &&& ICANON ≠ 0 ∧ icrnl Drivers.tio 13 = 10 ∧ isSignal Drivers.tio 10 = false ∧
      released Drivers.tio [97] [[98, 127, 99], [100]] = [97, 99, 10, 100, 10] ∧
      ((⟨Drivers.tio, [97], [], [], []⟩ : Console).consolePoll
          ([[98, 127, 99], [100]].flatMap (· ++ [13]) ++ [101])).queue =
        [] ++ released Drivers.tio [97] [[98, 127, 99], [100]] ∧
      ((⟨Drivers.tio, [97], [], [], []⟩ : Console).consolePoll
          ([[98, 127, 99], [100]].flatMap (· ++ [13]) ++ [101])).lineBuffer =
        editLine Drivers.tio (if [[98, 127, 99], [100]] = ([] : List (List Int8)) then [97] else [])
          [101] :=
  ⟨by decide, by decide, by decide, by decide,
    @consolePoll_lines ⟨Drivers.tio, [97], [], [], []⟩ (by decide) 13 (by decide) (by decide)
      [[98, 127, 99], [100]] (by decide +kernel) [101] (by decide +kernel)⟩

/-- `console_poll` in non-canonical mode. -/
theorem consolePoll_raw (s : Console) (hraw : ¬ s.tio.lflag &&& ICANON ≠ 0) (cs : List Int8) :
    (s.consolePoll cs).queue = s.queue ++ (cs.map (icrnl s.tio)).filter (fun c => !isSignal s.tio c) ∧
      (s.consolePoll cs).lineBuffer = s.lineBuffer := by
  have h := (s.consolePoll_edit cs).2
  rw [foldl_edit_raw hraw, Prod.mk.injEq] at h
  exact h

/-! ## Reading -/

/-- The read loop, for `uio_resid` the sum of the iovec lengths, copies the front of the queue,
as much of it as fits. -/
theorem readLoop_eq :
    ∀ (iovs : List ℕ) (q : List Int8),
      readLoop iovs.sum iovs q = (q.take (min iovs.sum q.length), q.drop (min iovs.sum q.length))
  | [], q => by simp [readLoop]
  | len :: iovs, q => by
      rw [readLoop, List.sum_cons]
      by_cases hstop : len + iovs.sum = 0 ∨ q = []
      · rw [if_pos hstop]
        rcases hstop with h0 | rfl
        · simp [h0]
        · simp
      rw [if_neg hstop]
      by_cases hfull : min q.length len = len
      · -- a full iovec: the rest of the loop reads the rest of the queue
        have hlen : len ≤ q.length := by omega
        rw [if_pos hfull, hfull, Nat.add_sub_cancel_left, readLoop_eq iovs (q.drop len),
          List.length_drop]
        dsimp only
        have hm : len + min iovs.sum (q.length - len) = min (len + iovs.sum) q.length := by omega
        rw [← List.take_add, List.drop_drop, hm, Nat.add_comm]
      · have hlt : q.length < len := by omega
        rw [if_neg hfull, show min q.length len = q.length by omega,
          show min (len + iovs.sum) q.length = q.length by omega]

/-- **`console_read` hands out the front of `console_queue`, in order, and at most
`uio_resid` bytes.** -/
theorem consoleRead_eq (s : Console) (uio : Uio) (hq : s.queue ≠ []) :
    s.consoleRead uio = some (s.queue.take (min uio.resid s.queue.length),
      { s with queue := s.queue.drop (min uio.resid s.queue.length) }) := by
  rw [consoleRead, if_neg hq, uio.resid_eq, readLoop_eq]

/-- Two lines queued, read into iovecs of two and one bytes: the first line comes out, with its
newline, and the second stays queued. -/
theorem consoleRead_eq_two_lines :
    [97, 99, 10, 100, 10] ≠ ([] : List Int8) ∧
      (⟨Drivers.tio, [], [97, 99, 10, 100, 10], [], []⟩ : Console).consoleRead ⟨[2, 1], 3, rfl⟩ =
        some ([97, 99, 10], ⟨Drivers.tio, [], [100, 10], [], []⟩) :=
  ⟨by decide, consoleRead_eq ⟨Drivers.tio, [], [97, 99, 10, 100, 10], [], []⟩ _ (by decide)⟩

end Console

/-! ## The echo -/

namespace Console

variable (s : Console)

/-- With `ICANON` set, `c_lflag` is not zero, so `tio.c_lflag && x` holds for every flag `x`. -/
theorem logicalAnd_of_canon (hcanon : s.tio.lflag &&& ICANON ≠ 0) {x : UInt32} (hx : x ≠ 0) :
    logicalAnd s.tio.lflag x = true := by
  have hl : s.tio.lflag ≠ 0 := fun h => hcanon (by rw [h, UInt32.zero_and])
  simp [logicalAnd, hl, hx]

theorem lineStep_newline_out (hcanon : s.tio.lflag &&& ICANON ≠ 0) :
    (s.lineStep 10).out = s.out ++ [10] := by
  rw [lineStep, if_pos hcanon, if_pos rfl, if_pos (s.logicalAnd_of_canon hcanon (by decide))]

theorem lineStep_erase_out (hcanon : s.tio.lflag &&& ICANON ≠ 0) {c e : Int8} (hnl : c ≠ 10)
    (herase : isCc c s.tio.verase = true) (hlast : s.lineBuffer.getLast? = some e) :
    (s.lineStep c).out = s.out ++ (if isctrl e then eraser else eraser.take 3) := by
  rw [lineStep, if_pos hcanon, if_neg hnl, if_pos herase, hlast]
  dsimp only
  rw [if_pos (s.logicalAnd_of_canon hcanon (by decide)), eraseEcho,
    if_pos (s.logicalAnd_of_canon hcanon (by decide))]
  rfl

end Console

/-- `stty -echo`: the initial `tio` with `ECHO` cleared, as a program sets it to read a
password. -/
def noEcho : Termios := { tio with lflag := tio.lflag &&& ~~~ECHO }

/-- **The echo does not follow `ECHO` and `ECHOE`.**  In canonical mode, whatever `c_lflag`
holds besides `ICANON`, a newline is echoed, and an erase writes the visual erase sequence.
After `stty -echo` the input `a`, erase, return writes back, space, back, newline.  And on
x86-64, where `char` is signed, the byte `0xc3` of a UTF-8 character is a control character to
`isctrl`, echoed as `^` and `0x83`. -/
theorem console_echo_ignores_echo_flags :
    (∀ (s : Console) (c : Int8), s.tio.lflag &&& ICANON ≠ 0 → isSignal s.tio (icrnl s.tio c) = false →
      icrnl s.tio c = 10 → (s.consolePollStep c).out = s.out ++ [10]) ∧
    (∀ (s : Console) (c e : Int8), s.tio.lflag &&& ICANON ≠ 0 →
      isSignal s.tio (icrnl s.tio c) = false → icrnl s.tio c ≠ 10 →
      isCc (icrnl s.tio c) s.tio.verase = true → s.lineBuffer.getLast? = some e →
      (s.consolePollStep c).out = s.out ++ (if isctrl e then eraser else eraser.take 3)) ∧
    Console.consolePoll ⟨noEcho, [], [], [], []⟩ [97, 127, 13] = ⟨noEcho, [], [10], [8, 32, 8, 10], []⟩ ∧
    (Console.init.consolePollStep (-61)).out = [94, -125] := by
  refine ⟨fun s c hcanon hsig hnl => ?_, fun s c e hcanon hsig hnl herase hlast => ?_, by decide,
    by decide⟩
  · rw [Console.consolePollStep_of_not_signal s c hsig, hnl]
    exact s.lineStep_newline_out hcanon
  · rw [Console.consolePollStep_of_not_signal s c hsig]
    exact s.lineStep_erase_out hcanon hnl herase hlast

end Osv.Drivers
