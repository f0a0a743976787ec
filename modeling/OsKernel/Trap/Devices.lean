import Mathlib.Tactic.IntervalCases
import OsKernel.Lib.Blind
import OsKernel.Trap.Code

/-!
# The UART and the PLIC

The kernel model takes an external interrupt as `Irq.external claim rx`: what `plic_claim` returns
and the characters `uartgetc` finds. This module has the devices themselves, the 16550 receiver and
the PLIC at their addresses, and the driver one access at a time: `uartinit`, `plicinit` and
`plicinithart`, then `devintr` with `plic_claim`, `uartintr` and `plic_complete`. Characters come in
and other devices raise their lines between any two accesses.

* `uart_delivers` says that the protocol loses nothing: every character that the FIFO takes is given
  to `consoleintr` once and in order, and while the FIFO is not empty and the handler does not run,
  an interrupt is pending.
* `handler_refines_devintr` says that the abstraction is right: what the handler does to the kernel
  is what `devintr` does with `Irq.external 10 rx`, for the characters `rx` it has delivered.
-/

namespace OsKernel

/-! ### The hardware -/

/-- The receiver of the 16550. -/
structure Uart where
  ier : BitVec 8
  lcr : BitVec 8
  /-- The FIFO, the oldest character first. -/
  rx : List UInt8
  /-- The characters the FIFO has taken since it was last cleared. -/
  accepted : List UInt8

/-- The PLIC, with sources 1 to 31 and the supervisor context of hart 0. -/
structure Plic where
  priority : ℕ → BitVec 32
  enable : BitVec 32
  threshold : BitVec 32
  pending : ℕ → Bool
  /-- The source has been claimed and not completed. -/
  serving : ℕ → Bool

structure Devices where
  uart : Uart
  plic : Plic

/-- The interrupt line of the UART is a level. -/
def Uart.line (u : Uart) : Bool := u.ier.getLsbD 0 && !u.rx.isEmpty

namespace Plic

/-- The source may interrupt the hart. -/
def offers (p : Plic) (i : ℕ) : Bool :=
  p.pending i && p.enable.getLsbD i && decide (p.threshold < p.priority i)

/-- The source with the highest priority among those that may interrupt; 0 if there is none. -/
def best (p : Plic) : ℕ :=
  (List.range 32).foldl
    (fun b i => if p.offers i = true ∧ (b = 0 ∨ p.priority b < p.priority i) then i else b) 0

/-- A claim. -/
def claim (p : Plic) : Plic :=
  if p.best = 0 then p
  else
    { p with
      pending := Function.update p.pending p.best false
      serving := Function.update p.serving p.best true }

/-- A completion. -/
def complete (p : Plic) (irq : ℕ) : Plic :=
  { p with serving := Function.update p.serving irq false }

end Plic

/-- `UART0_IRQ` as a source of the PLIC. -/
def uartSource : ℕ := 10

/-- The size of the FIFO. -/
def uartFifo : ℕ := 16

-- `RHR`, `IER`, `FCR` and `ISR`, `LCR`, `LSR`
def uartRhr : ℕ := uart0 + 0

def uartIer : ℕ := uart0 + 1

def uartFcr : ℕ := uart0 + 2

def uartIsr : ℕ := uart0 + 2

def uartLcr : ℕ := uart0 + 3

def uartLsr : ℕ := uart0 + 5

/-- `PLIC + irq * 4`. -/
def plicPriority (irq : ℕ) : ℕ := plic + irq * 4

/-- `PLIC_SENABLE`. -/
def plicSenable (hart : ℕ) : ℕ := plic + 0x2080 + hart * 0x100

/-- `PLIC_SPRIORITY`. -/
def plicSpriority (hart : ℕ) : ℕ := plic + 0x201000 + hart * 0x2000

/-- `PLIC_SCLAIM`. -/
def plicSclaim (hart : ℕ) : ℕ := plic + 0x201004 + hart * 0x2000

namespace Devices

/-- The gateway of the PLIC turns the line of the UART into a request, one at a time. -/
def settle (d : Devices) : Devices :=
  if d.uart.line = true ∧ d.plic.pending uartSource = false ∧ d.plic.serving uartSource = false then
    { d with plic := { d.plic with pending := Function.update d.plic.pending uartSource true } }
  else d

/-- A character comes in. The FIFO drops it when it is full. -/
def receive (d : Devices) (c : UInt8) : Devices :=
  if d.uart.rx.length < uartFifo then
    settle { d with
      uart := { d.uart with rx := d.uart.rx ++ [c], accepted := d.uart.accepted ++ [c] } }
  else d

/-- Another device raises its line. -/
def raise (d : Devices) (i : ℕ) : Devices :=
  { d with plic := { d.plic with pending := Function.update d.plic.pending i true } }

/-- A load of a byte. The transmitter is idle. -/
def read8 (d : Devices) (a : ℕ) : UInt8 × Devices :=
  if a = uartRhr then
    (d.uart.rx.headD 0, settle { d with uart := { d.uart with rx := d.uart.rx.tail } })
  else if a = uartIsr then (if d.uart.line then 0xc4 else 0xc1, d)
  else if a = uartLsr then (if d.uart.rx.isEmpty then 0x60 else 0x61, d)
  else (0, d)

/-- A store of a byte. A store to `FCR` with bit 1 clears the receive FIFO. -/
def write8 (d : Devices) (a : ℕ) (v : BitVec 8) : Devices :=
  if a = uartIer then settle { d with uart := { d.uart with ier := v } }
  else if a = uartFcr then
    if v.getLsbD 1 then { d with uart := { d.uart with rx := [], accepted := [] } } else d
  else if a = uartLcr then { d with uart := { d.uart with lcr := v } }
  else d

/-- A load of a word. -/
def read32 (d : Devices) (a : ℕ) : BitVec 32 × Devices :=
  if a = plicSclaim 0 then (BitVec.ofNat 32 d.plic.best, { d with plic := d.plic.claim })
  else (0, d)

/-- A store of a word. -/
def write32 (d : Devices) (a : ℕ) (v : BitVec 32) : Devices :=
  if a = plicSclaim 0 then settle { d with plic := d.plic.complete v.toNat }
  else if a = plicSenable 0 then { d with plic := { d.plic with enable := v } }
  else if a = plicSpriority 0 then { d with plic := { d.plic with threshold := v } }
  else if a < plicPriority 32 then
    { d with
      plic := { d.plic with
        priority := Function.update d.plic.priority ((a - OsKernel.plic) / 4) v } }
  else d

end Devices

/-! ### The driver -/

/-- A store of the driver to a device. -/
inductive DeviceWrite where
  | byte (a : ℕ) (v : BitVec 8)
  | word (a : ℕ) (v : BitVec 32)
  deriving DecidableEq, Repr

def DeviceWrite.apply (d : Devices) : DeviceWrite → Devices
  | .byte a v => d.write8 a v
  | .word a v => d.write32 a v

-- `IER_RX_ENABLE`, `LCR_EIGHT_BITS`, `FCR_FIFO_ENABLE` and `FCR_FIFO_CLEAR`
def ierRxEnable : BitVec 8 := (1 : BitVec 8) <<< 0

def lcrEightBits : BitVec 8 := (3 : BitVec 8) <<< 0

def fcrFifoEnable : BitVec 8 := (1 : BitVec 8) <<< 0

def fcrFifoClear : BitVec 8 := (3 : BitVec 8) <<< 1

/-- `uartinit`. -/
def uartinit : List DeviceWrite :=
  [.byte uartIer 0x00, .byte uartLcr lcrEightBits, .byte uartFcr (fcrFifoEnable ||| fcrFifoClear),
    .byte uartIer ierRxEnable]

/-- `plicinit`. -/
def plicinit : List DeviceWrite := [.word (plicPriority uartSource) 1]

/-- `plicinithart` on hart 0. -/
def plicinithart : List DeviceWrite :=
  [.word (plicSenable 0) (1#32 <<< uartSource), .word (plicSpriority 0) 0]

/-- The stores of `main` to the devices. -/
def deviceInit : List DeviceWrite := uartinit ++ plicinit ++ plicinithart

/-- Where the driver is. -/
inductive DriverPc where
  /-- Before a store of `deviceInit`. -/
  | init (k : ℕ)
  /-- Not in the handler. -/
  | idle
  /-- Before `plic_claim`. -/
  | claim
  /-- Before `ReadReg(ISR)` in `uartintr`. -/
  | isr
  /-- Before the test of `LSR` in `uartgetc`. -/
  | lsr
  /-- Before `ReadReg(RHR)` in `uartgetc`. -/
  | rhr
  /-- Before `consoleintr(c)`. -/
  | deliver (c : UInt8)
  /-- Before the message of `devintr` about an interrupt it does not know. -/
  | unexpected (irq : BitVec 32)
  /-- Before `plic_complete(irq)`. -/
  | complete (irq : BitVec 32)
  deriving DecidableEq, Repr

/-- The driver, the kernel and the devices, and the characters given to `consoleintr` so far. -/
structure Driver where
  pc : DriverPc
  kernel : K
  dev : Devices
  delivered : List UInt8

/-- The driver makes one access, or a device does something. -/
inductive DriverStep (L : Layout) : Driver → Driver → Prop
  | receive (x : Driver) (c : UInt8) : DriverStep L x { x with dev := x.dev.receive c }
  | raise (x : Driver) {i : ℕ} (hi : i ≠ uartSource) :
      DriverStep L x { x with dev := x.dev.raise i }
  | init {x : Driver} {k : ℕ} {w : DeviceWrite} (hpc : x.pc = .init k)
      (hw : deviceInit[k]? = some w) :
      DriverStep L x { x with
        pc := if k + 1 = deviceInit.length then .idle else .init (k + 1)
        dev := w.apply x.dev }
  /-- Outside the handler the kernel does whatever it does. -/
  | work {x : Driver} (hpc : x.pc = .idle) (s : K) : DriverStep L x { x with kernel := s }
  /-- The hart takes the external interrupt. -/
  | trap {x : Driver} (hpc : x.pc = .idle) (hirq : x.dev.plic.best ≠ 0) :
      DriverStep L x { x with pc := .claim }
  | claim {x : Driver} (hpc : x.pc = .claim) :
      DriverStep L x { x with
        pc := if (x.dev.read32 (plicSclaim 0)).1 = uart0Irq then .isr
          else if (x.dev.read32 (plicSclaim 0)).1 ≠ 0 then
            .unexpected (x.dev.read32 (plicSclaim 0)).1
          else .idle
        dev := (x.dev.read32 (plicSclaim 0)).2 }
  | isr {x : Driver} (hpc : x.pc = .isr) :
      DriverStep L x { x with pc := .lsr, dev := (x.dev.read8 uartIsr).2 }
  | lsr {x : Driver} (hpc : x.pc = .lsr) :
      DriverStep L x { x with
        pc := if (x.dev.read8 uartLsr).1 &&& 1 ≠ 0 then .rhr else .complete uart0Irq
        dev := (x.dev.read8 uartLsr).2 }
  | rhr {x : Driver} (hpc : x.pc = .rhr) :
      DriverStep L x { x with
        pc := .deliver (x.dev.read8 uartRhr).1
        dev := (x.dev.read8 uartRhr).2 }
  | deliver {x : Driver} {c : UInt8} {s : K} (hpc : x.pc = .deliver c)
      (hrun : (consoleintr L c).run x.kernel = .ok ((), s)) :
      DriverStep L x { x with pc := .lsr, kernel := s, delivered := x.delivered ++ [c] }
  | unexpected {x : Driver} {irq : BitVec 32} {s : K} (hpc : x.pc = .unexpected irq)
      (hrun : (printf "unexpected interrupt irq=%d\n" [.word (irq.signExtend 64)]).run x.kernel =
        .ok ((), s)) :
      DriverStep L x { x with pc := .complete irq, kernel := s }
  | complete {x : Driver} {irq : BitVec 32} (hpc : x.pc = .complete irq) :
      DriverStep L x { x with pc := .idle, dev := x.dev.write32 (plicSclaim 0) irq }

/-- The devices out of reset: nothing is being served. -/
structure Driver.AtReset (x : Driver) : Prop where
  pc : x.pc = .init 0
  serving : x.dev.plic.serving uartSource = false
  delivered : x.delivered = []

/-! ### What the accesses do -/

namespace Devices

variable {d : Devices}

@[simp] theorem settle_uart : d.settle.uart = d.uart := by
  rw [settle]
  split_ifs <;> rfl

@[simp] theorem settle_serving : d.settle.plic.serving = d.plic.serving := by
  rw [settle]
  split_ifs <;> rfl

theorem settle_pending (h : d.plic.pending uartSource = true) :
    d.settle.plic.pending uartSource = true := by
  rw [settle, if_neg (by simp [h])]
  exact h

/-- The devices as `deviceInit` sets them up. -/
structure Ready (d : Devices) : Prop where
  ier : d.uart.ier.getLsbD 0 = true
  enable : d.plic.enable = 1#32 <<< uartSource
  priority : d.plic.priority uartSource = 1
  threshold : d.plic.threshold = 0

/-- The gateway has seen the line. -/
def Settled (d : Devices) : Prop :=
  d.uart.line = true → d.plic.pending uartSource = true ∨ d.plic.serving uartSource = true

theorem settled_settle (d : Devices) : d.settle.Settled := by
  intro hline
  rw [settle_uart] at hline
  rw [settle]
  split_ifs with h
  · refine .inl ?_
    show Function.update d.plic.pending uartSource true uartSource = true
    exact Function.update_self ..
  · by_contra hno
    rw [not_or, Bool.not_eq_true, Bool.not_eq_true] at hno
    exact h ⟨hline, hno⟩

theorem Ready.settle (h : d.Ready) : d.settle.Ready := by
  rw [Devices.settle]
  split_ifs
  · exact ⟨h.ier, h.enable, h.priority, h.threshold⟩
  · exact h

/-- Only the UART can interrupt. -/
theorem Ready.offers (h : d.Ready) (i : ℕ) :
    d.plic.offers i = (d.plic.pending uartSource && decide (i = uartSource)) := by
  rw [Plic.offers, h.enable, h.threshold]
  by_cases hi : i = uartSource
  · rw [hi, h.priority]
    simp [uartSource]
  · have hbit : (1#32 <<< uartSource).getLsbD i = false := by
      rw [BitVec.getLsbD_shiftLeft, BitVec.getLsbD_one]
      rw [uartSource] at hi ⊢
      simp only [Bool.and_eq_false_iff, decide_eq_false_iff_not, Bool.not_eq_false',
        decide_eq_true_eq]
      omega
    rw [hbit, decide_eq_false hi, Bool.and_false, Bool.and_false, Bool.false_and]

theorem Ready.best (h : d.Ready) :
    d.plic.best = if d.plic.pending uartSource then uartSource else 0 := by
  simp only [Plic.best, h.offers]
  by_cases hp : d.plic.pending uartSource = true
  · rw [if_pos hp, hp]
    simp [List.range, List.range.loop, uartSource]
  · simp [hp]

theorem read32_sclaim (h : d.Ready) (hp : d.plic.pending uartSource = true) :
    d.read32 (plicSclaim 0) = (uart0Irq, { d with
      plic := { d.plic with
        pending := Function.update d.plic.pending uartSource false
        serving := Function.update d.plic.serving uartSource true } }) := by
  have hbest : d.plic.best = uartSource := by rw [h.best, if_pos hp]
  rw [read32, if_pos rfl, Plic.claim, hbest, if_neg (by decide)]
  rfl

theorem lsr_not_ready (h : d.uart.rx = []) : ¬((d.read8 uartLsr).1 &&& 1 ≠ 0) := by
  rw [show (d.read8 uartLsr).1 = if d.uart.rx.isEmpty then 0x60 else 0x61 from rfl, h]
  decide

theorem lsr_ready {c : UInt8} {cs : List UInt8} (h : d.uart.rx = c :: cs) :
    (d.read8 uartLsr).1 &&& 1 ≠ 0 := by
  rw [show (d.read8 uartLsr).1 = if d.uart.rx.isEmpty then 0x60 else 0x61 from rfl, h]
  exact (by decide : (0x61 : UInt8) &&& 1 ≠ 0)

/-- The head of the FIFO comes out, and the gateway sees the rest. -/
theorem read8_rhr {c : UInt8} {cs : List UInt8} (h : d.uart.rx = c :: cs) :
    d.read8 uartRhr = (c, settle { d with uart := { d.uart with rx := cs } }) := by
  rw [read8, if_pos rfl, h]
  rfl

end Devices

/-! ### The protocol -/

/-- The characters that have been read from the UART and not been delivered. -/
def DriverPc.inFlight : DriverPc → List UInt8
  | .deliver c => [c]
  | _ => []

/-- The characters in the UART, in the driver and delivered are those that came in. -/
def Driver.Balanced (x : Driver) : Prop :=
  x.dev.uart.accepted = x.delivered ++ x.pc.inFlight ++ x.dev.uart.rx

/-- What holds of the devices at each place of the driver. -/
def DriverPc.Holds (d : Devices) : DriverPc → Prop
  | .init k => d.plic.serving uartSource = false ∧
      (4 ≤ k → d.uart.ier.getLsbD 0 = true ∧ d.Settled) ∧
      (5 ≤ k → d.plic.priority uartSource = 1) ∧ (6 ≤ k → d.plic.enable = 1#32 <<< uartSource)
  | .idle => d.Ready ∧ d.Settled ∧ d.plic.serving uartSource = false
  | .claim => d.Ready ∧ d.plic.serving uartSource = false ∧ d.plic.pending uartSource = true
  | .rhr => d.Ready ∧ d.plic.serving uartSource = true ∧ d.uart.rx ≠ []
  | .unexpected _ => False
  | .complete irq => irq = uart0Irq ∧ d.Ready ∧ d.plic.serving uartSource = true
  | _ => d.Ready ∧ d.plic.serving uartSource = true

/-- The invariant of the driver. -/
structure Driver.Ok (x : Driver) : Prop where
  holds : x.pc.Holds x.dev
  balanced : (∀ k < 3, x.pc ≠ .init k) → x.Balanced
  fresh : (∃ k, x.pc = .init k) → x.delivered = []

/-- The hardware moves only the FIFO and the requests. -/
structure Devices.Moves (d d' : Devices) : Prop where
  ier : d'.uart.ier = d.uart.ier
  rx : ∃ cs, d'.uart.rx = d.uart.rx ++ cs ∧ d'.uart.accepted = d.uart.accepted ++ cs
  priority : d'.plic.priority = d.plic.priority
  enable : d'.plic.enable = d.plic.enable
  threshold : d'.plic.threshold = d.plic.threshold
  serving : d'.plic.serving = d.plic.serving
  pending : d.plic.pending uartSource = true → d'.plic.pending uartSource = true
  settled : d.Settled → d'.Settled

theorem Devices.moves_settle (d : Devices) : d.Moves d.settle := by
  refine ⟨by rw [settle_uart], ⟨[], by simp⟩, ?_, ?_, ?_, settle_serving, settle_pending,
    fun _ => settled_settle d⟩
  all_goals
    rw [settle]
    split_ifs <;> rfl

theorem Devices.moves_receive (d : Devices) (c : UInt8) : d.Moves (d.receive c) := by
  rw [receive]
  split_ifs
  · refine ⟨by simp, ⟨[c], by simp⟩, ?_, ?_, ?_, by simp, fun hp => settle_pending hp,
      fun _ => settled_settle _⟩
    · exact (moves_settle _).priority
    · exact (moves_settle _).enable
    · exact (moves_settle _).threshold
  · exact ⟨rfl, ⟨[], by simp⟩, rfl, rfl, rfl, rfl, id, id⟩

theorem Devices.moves_raise (d : Devices) {i : ℕ} (hi : i ≠ uartSource) : d.Moves (d.raise i) := by
  have hpending : (d.raise i).plic.pending uartSource = d.plic.pending uartSource :=
    Function.update_of_ne hi.symm ..
  refine ⟨rfl, ⟨[], by simp [raise]⟩, rfl, rfl, rfl, rfl, fun hp => hpending.trans hp,
    fun hs hline => ?_⟩
  rw [hpending]
  exact hs hline

theorem Devices.Ready.moves {d d' : Devices} (h : d.Ready) (hm : d.Moves d') : d'.Ready :=
  ⟨by rw [hm.ier]; exact h.ier, hm.enable.trans h.enable, by rw [hm.priority]; exact h.priority,
    hm.threshold.trans h.threshold⟩

theorem DriverPc.Holds.moves {pc : DriverPc} {d d' : Devices} (h : pc.Holds d) (hm : d.Moves d') :
    pc.Holds d' := by
  have hserving := congrFun hm.serving uartSource
  cases pc with
  | init k =>
    obtain ⟨hs, hier, hprio, hen⟩ := h
    refine ⟨hserving.trans hs, fun hk => ⟨?_, hm.settled (hier hk).2⟩, fun hk => ?_, fun hk => ?_⟩
    · rw [hm.ier]
      exact (hier hk).1
    · rw [hm.priority]
      exact hprio hk
    · exact hm.enable.trans (hen hk)
  | idle => exact ⟨h.1.moves hm, hm.settled h.2.1, hserving.trans h.2.2⟩
  | claim => exact ⟨h.1.moves hm, hserving.trans h.2.1, hm.pending h.2.2⟩
  | rhr =>
    obtain ⟨cs, hrx, -⟩ := hm.rx
    refine ⟨h.1.moves hm, hserving.trans h.2.1, ?_⟩
    rw [hrx]
    exact List.append_ne_nil_of_left_ne_nil h.2.2 _
  | unexpected irq => exact h
  | complete irq => exact ⟨h.1, h.2.1.moves hm, hserving.trans h.2.2⟩
  | isr => exact ⟨h.1.moves hm, hserving.trans h.2⟩
  | lsr => exact ⟨h.1.moves hm, hserving.trans h.2⟩
  | deliver c => exact ⟨h.1.moves hm, hserving.trans h.2⟩

theorem Driver.Ok.moves {x : Driver} {d : Devices} (h : x.Ok) (hm : x.dev.Moves d) :
    Driver.Ok { x with dev := d } := by
  refine ⟨h.holds.moves hm, fun hk => ?_, h.fresh⟩
  obtain ⟨cs, hrx, hacc⟩ := hm.rx
  rw [Driver.Balanced, hrx, hacc, h.balanced hk, List.append_assoc]

/-- One store of `deviceInit`. -/
theorem Driver.Ok.init {x : Driver} {k : ℕ} {w : DeviceWrite} (h : x.Ok) (hpc : x.pc = .init k)
    (hw : deviceInit[k]? = some w) :
    Driver.Ok { x with
      pc := if k + 1 = deviceInit.length then .idle else .init (k + 1)
      dev := w.apply x.dev } := by
  obtain ⟨pc, s, d, del⟩ := x
  obtain rfl : pc = .init k := hpc
  obtain rfl : del = [] := h.fresh ⟨k, rfl⟩
  obtain ⟨hserving, hier, hprio, hen⟩ : (DriverPc.init k).Holds d := h.holds
  have hlt : k < 7 := (List.getElem?_eq_some_iff.mp hw).1
  have hno : ∀ {m n : ℕ} {P : Prop}, n < m → m ≤ n → P := fun h h' => absurd h (Nat.not_lt.mpr h')
  have hbal : 3 ≤ k → d.uart.accepted = d.uart.rx := fun hk => h.balanced fun j hj he => by
    obtain rfl := DriverPc.init.inj he
    omega
  interval_cases k
  all_goals obtain rfl := Option.some.inj hw
  · -- `IER` off
    refine ⟨⟨?_, hno (by decide), hno (by decide), hno (by decide)⟩,
      fun hk => absurd rfl (hk 1 (by decide)), fun _ => rfl⟩
    exact (congrFun Devices.settle_serving _).trans hserving
  · -- `LCR`
    exact ⟨⟨hserving, hno (by decide), hno (by decide), hno (by decide)⟩,
      fun hk => absurd rfl (hk 2 (by decide)), fun _ => rfl⟩
  · -- `FCR` clears the FIFO
    exact ⟨⟨hserving, hno (by decide), hno (by decide), hno (by decide)⟩, fun _ => rfl,
      fun _ => rfl⟩
  · -- `IER` on
    refine ⟨⟨?_, fun _ => ⟨?_, Devices.settled_settle _⟩, hno (by decide), hno (by decide)⟩,
      fun _ => ?_, fun _ => rfl⟩
    · exact (congrFun Devices.settle_serving _).trans hserving
    · show (Devices.settle { d with uart := { d.uart with ier := ierRxEnable } }).uart.ier.getLsbD
        0 = true
      rw [Devices.settle_uart]
      exact (by decide : ierRxEnable.getLsbD 0 = true)
    · show (Devices.settle _).uart.accepted = (Devices.settle _).uart.rx
      rw [Devices.settle_uart]
      exact hbal (by decide)
  · -- the priority of the UART
    refine ⟨⟨hserving, fun _ => hier (by decide), fun _ => ?_, hno (by decide)⟩,
      fun _ => hbal (by decide), fun _ => rfl⟩
    show Function.update d.plic.priority uartSource 1 uartSource = 1
    exact Function.update_self ..
  · -- the enable bit of the UART
    exact ⟨⟨hserving, fun _ => hier (by decide), fun _ => hprio (by decide), fun _ => rfl⟩,
      fun _ => hbal (by decide), fun _ => rfl⟩
  · -- the threshold
    refine ⟨⟨⟨(hier (by decide)).1, hen (by decide), hprio (by decide), rfl⟩,
      (hier (by decide)).2, hserving⟩, fun _ => hbal (by decide), ?_⟩
    rintro ⟨k, hk⟩
    cases hk

theorem Driver.Ok.at {x : Driver} {pc : DriverPc} (h : x.Ok) (hpc : x.pc = pc) :
    pc.Holds x.dev := hpc ▸ h.holds

/-- Once the devices are set up the characters are accounted for. -/
theorem Driver.Ok.account {x : Driver} {pc : DriverPc} (h : x.Ok) (hpc : x.pc = pc)
    (hset : ∀ k, pc ≠ .init k) :
    x.dev.uart.accepted = x.delivered ++ pc.inFlight ++ x.dev.uart.rx := by
  have hbal := h.balanced fun k _ he => hset k (hpc.symm.trans he)
  rwa [Driver.Balanced, hpc] at hbal

/-- The account at a place after the set-up. -/
theorem Driver.ok_of {pc : DriverPc} {s : K} {d : Devices} {del : List UInt8} (h : pc.Holds d)
    (hset : ∀ k, pc ≠ .init k) (hbal : d.uart.accepted = del ++ pc.inFlight ++ d.uart.rx) :
    Driver.Ok ⟨pc, s, d, del⟩ := by
  refine ⟨h, fun _ => hbal, ?_⟩
  rintro ⟨k, hk⟩
  exact absurd hk (hset k)

/-- **One step.** -/
theorem Driver.Ok.step {L : Layout} {x y : Driver} (h : x.Ok) (hstep : DriverStep L x y) :
    y.Ok := by
  cases hstep with
  | receive c => exact h.moves (x.dev.moves_receive c)
  | raise hi => exact h.moves (x.dev.moves_raise hi)
  | init hpc hw => exact h.init hpc hw
  | work hpc s => exact ⟨h.holds, h.balanced, h.fresh⟩
  | trap hpc hirq =>
    obtain ⟨hready, -, hserving⟩ := h.at hpc
    -- nothing but the UART is enabled, so what interrupts is the UART
    have hpending : x.dev.plic.pending uartSource = true := by
      rw [hready.best] at hirq
      by_contra hno
      exact hirq (if_neg hno)
    have hacc := h.account hpc (by simp)
    exact Driver.ok_of ⟨hready, hserving, hpending⟩ (by simp) hacc
  | claim hpc =>
    obtain ⟨hready, hserving, hpending⟩ := h.at hpc
    have hacc := h.account hpc (by simp)
    rw [Devices.read32_sclaim hready hpending, if_pos rfl]
    refine Driver.ok_of ⟨⟨hready.ier, hready.enable, hready.priority, hready.threshold⟩, ?_⟩
      (by simp) hacc
    show Function.update x.dev.plic.serving uartSource true uartSource = true
    exact Function.update_self ..
  | isr hpc =>
    have hold := h.at hpc
    have hacc := h.account hpc (by simp)
    exact Driver.ok_of hold (by simp) hacc
  | lsr hpc =>
    have hold := h.at hpc
    have hacc := h.account hpc (by simp)
    cases hrx : x.dev.uart.rx with
    | nil =>
      rw [if_neg (Devices.lsr_not_ready hrx)]
      exact Driver.ok_of ⟨rfl, hold⟩ (by simp) hacc
    | cons c cs =>
      have hne : x.dev.uart.rx ≠ [] := by simp [hrx]
      rw [if_pos (Devices.lsr_ready hrx)]
      exact Driver.ok_of ⟨hold.1, hold.2, hne⟩ (by simp) hacc
  | rhr hpc =>
    obtain ⟨hready, hserving, hne⟩ := h.at hpc
    have hacc := h.account hpc (by simp)
    obtain ⟨c, cs, hrx⟩ := List.exists_cons_of_ne_nil hne
    rw [Devices.read8_rhr hrx]
    refine Driver.ok_of ⟨Devices.Ready.settle ⟨hready.ier, hready.enable, hready.priority,
      hready.threshold⟩, ?_⟩ (by simp) ?_
    · rw [Devices.settle_serving]
      exact hserving
    · rw [Devices.settle_uart]
      show x.dev.uart.accepted = x.delivered ++ [c] ++ cs
      rw [hacc, hrx, List.append_assoc, List.append_assoc]
      rfl
  | @deliver c s hpc hrun =>
    have hold := h.at hpc
    have hacc := h.account hpc (by simp)
    refine Driver.ok_of hold (by simp) ?_
    show x.dev.uart.accepted = x.delivered ++ [c] ++ [] ++ x.dev.uart.rx
    rw [hacc, List.append_nil]
    rfl
  | unexpected hpc hrun => exact (h.at hpc).elim
  | complete hpc =>
    obtain ⟨rfl, hready, hserving⟩ := h.at hpc
    have hacc := h.account hpc (by simp)
    rw [show x.dev.write32 (plicSclaim 0) uart0Irq =
      Devices.settle { x.dev with plic := x.dev.plic.complete uartSource } from rfl]
    refine Driver.ok_of ⟨Devices.Ready.settle ⟨hready.ier, hready.enable, hready.priority,
      hready.threshold⟩, Devices.settled_settle _, ?_⟩ (by simp) ?_
    · rw [Devices.settle_serving]
      show Function.update x.dev.plic.serving uartSource false uartSource = false
      exact Function.update_self ..
    · rw [Devices.settle_uart]
      exact hacc

theorem Driver.AtReset.ok {x : Driver} (h : x.AtReset) : x.Ok := by
  refine ⟨?_, fun hk => absurd h.pc (hk 0 (by decide)), fun _ => h.delivered⟩
  rw [h.pc]
  refine ⟨h.serving, fun hk => ?_, fun hk => ?_, fun hk => ?_⟩
  all_goals exact absurd hk (by decide)

/-- **The driver loses nothing.** From reset on, in whatever order the devices and the driver act:
once the devices are set up, the characters the FIFO has taken are those delivered to `consoleintr`,
in order, then the one that is being delivered, then those in the FIFO. The driver meets no
interrupt it does not know. And while it is not in the handler and there are characters in the FIFO,
an interrupt is pending. -/
theorem uart_delivers {L : Layout} {x y : Driver} (hx : x.AtReset)
    (hrun : Relation.ReflTransGen (DriverStep L) x y) :
    ((∀ k, y.pc ≠ .init k) → y.Balanced) ∧ (∀ irq, y.pc ≠ .unexpected irq) ∧
      (y.pc = .idle → y.dev.uart.rx ≠ [] → y.dev.plic.best = uartSource) := by
  have hok : y.Ok := by
    induction hrun with
    | refl => exact hx.ok
    | tail _ hstep ih => exact ih.step hstep
  refine ⟨fun hset => hok.balanced fun k _ => hset k, fun irq hpc => (hok.at hpc).elim,
    fun hpc hne => ?_⟩
  obtain ⟨hready, hsettled, hserving⟩ := hok.at hpc
  have hline : y.dev.uart.line = true := by
    rw [Uart.line, hready.ier]
    simpa using hne
  have hpending := (hsettled hline).resolve_right (by simp [hserving])
  rw [hready.best, if_pos hpending]

/-- Devices out of reset. -/
def resetDriver (s : K) : Driver :=
  ⟨.init 0, s, ⟨⟨0, 0, [], []⟩, ⟨fun _ => 0, 0, 0, fun _ => false, fun _ => false⟩⟩, []⟩

/-- The driver when the devices are set up. -/
def readyDriver (s : K) : Driver :=
  { resetDriver s with pc := .idle, dev := deviceInit.foldl DeviceWrite.apply (resetDriver s).dev }

theorem run_deviceInit (L : Layout) (s : K) :
    Relation.ReflTransGen (DriverStep L) (resetDriver s) (readyDriver s) := by
  have h₁ := Relation.ReflTransGen.single (DriverStep.init (L := L) (x := resetDriver s) rfl rfl)
  have h₂ := h₁.tail (.init rfl rfl)
  have h₃ := h₂.tail (.init rfl rfl)
  have h₄ := h₃.tail (.init rfl rfl)
  have h₅ := h₄.tail (.init rfl rfl)
  have h₆ := h₅.tail (.init rfl rfl)
  have h₇ := h₆.tail (.init rfl rfl)
  exact h₇

/-- A character comes in after the set-up. -/
theorem uart_delivers_a : ∃ y : Driver,
    Relation.ReflTransGen (DriverStep .virt) (resetDriver (onePageK .virt)) y ∧
    y.dev.uart.rx = [97] ∧ y.dev.plic.best = uartSource := by
  have hrun := (run_deviceInit .virt (onePageK .virt)).tail (.receive _ 97)
  exact ⟨_, hrun, rfl, (uart_delivers ⟨rfl, rfl, rfl⟩ hrun).2.2 rfl (by decide)⟩

/-! ### The handler and the kernel -/

/-- The kernel with what the devices hold during a trap. -/
def K.device (s : K) (claim : BitVec 32) (rx : List UInt8) : K :=
  { s with core := { s.core with claim := claim, rx := rx } }

section Blind

variable (claim : BitVec 32) (rx : List UInt8)

theorem blind_getHart {α : Type} (g : Hart → α) : (getHart g).Blind fun s => s.device claim rx :=
  Prog.blind_read fun _ => rfl

theorem blind_modHart (g : Hart → Hart) : (modHart g).Blind fun s => s.device claim rx :=
  Prog.blind_update fun _ => rfl

theorem blind_getCore {α : Type} {g : Core → α}
    (h : ∀ c, g { c with claim := claim, rx := rx } = g c) :
    (getCore g).Blind fun s => s.device claim rx := Prog.blind_read fun s => h s.core

theorem blind_modCore {g : Core → Core}
    (h : ∀ c, g { c with claim := claim, rx := rx } = { g c with claim := claim, rx := rx }) :
    (modCore g).Blind fun s => s.device claim rx :=
  Prog.blind_update fun s => congrArg (fun c => K.mk c s.hart) (h s.core)

theorem blind_pushOff : pushOff.Blind fun s => s.device claim rx :=
  (blind_getHart claim rx _).bind fun _ => (blind_modHart claim rx _).bind fun _ =>
    (blind_modHart claim rx _).bind fun _ => blind_modHart claim rx _

theorem blind_popOff : popOff.Blind fun s => s.device claim rx :=
  (blind_getHart claim rx _).bind fun _ => Prog.blind_ite Prog.blind_panic
    ((blind_getHart claim rx _).bind fun _ => Prog.blind_ite Prog.blind_panic
      ((blind_modHart claim rx _).bind fun _ => blind_modHart claim rx _))

theorem blind_testAndSet (lk : Lock) : (testAndSet lk).Blind fun s => s.device claim rx :=
  fun _ => ⟨rfl, rfl, trivial⟩

theorem blind_acquire (lk : Lock) : (acquire lk).Blind fun s => s.device claim rx :=
  (blind_pushOff claim rx).bind fun _ => (blind_getHart claim rx _).bind fun _ =>
    Prog.blind_ite Prog.blind_panic ((blind_testAndSet claim rx lk).bind fun _ =>
      Prog.blind_ite Prog.blind_panic Prog.blind_pure)

theorem blind_release (lk : Lock) : (release lk).Blind fun s => s.device claim rx :=
  (blind_getHart claim rx _).bind fun _ => Prog.blind_ite
    ((blind_modHart claim rx _).bind fun _ => blind_popOff claim rx) Prog.blind_panic

theorem blind_wakeupLoop (chan : Option Chan) (ps : List Slot) :
    (wakeupLoop chan ps).Blind fun s => s.device claim rx := by
  induction ps with
  | nil => exact Prog.blind_pure
  | cons p ps ih =>
    exact (blind_acquire claim rx _).bind fun _ => (blind_modCore claim rx fun _ => rfl).bind
      fun _ => (blind_release claim rx _).bind fun _ => ih

theorem blind_consputc (c : UInt8) : (consputc c).Blind fun s => s.device claim rx :=
  (blind_pushOff claim rx).bind fun _ => (blind_modCore claim rx fun _ => rfl).bind fun _ =>
    blind_popOff claim rx

/-- `consoleintr` gets its character as an argument. -/
theorem blind_consoleintr (L : Layout) (c : UInt8) :
    (consoleintr L c).Blind fun s => s.device claim rx := by
  refine (blind_acquire claim rx _).bind fun _ => Prog.Blind.bind ?_ fun _ =>
    blind_release claim rx _
  refine (blind_modCore claim rx fun _ => rfl).bind fun _ => (blind_getCore claim rx fun _ =>
    rfl).bind fun cons => Prog.blind_ite ?_ Prog.blind_pure
  refine (blind_consputc claim rx _).bind fun _ => ?_
  refine (blind_modCore claim rx fun _ => rfl).bind fun _ => ?_
  refine (blind_getCore claim rx fun _ => rfl).bind fun cons => ?_
  refine Prog.blind_ite ?_ Prog.blind_pure
  exact (blind_modCore claim rx fun _ => rfl).bind fun _ => blind_wakeupLoop claim rx _ _

end Blind

/-- A step while the handler runs. -/
def HandlerStep (L : Layout) (x y : Driver) : Prop := DriverStep L x y ∧ x.pc ≠ .idle

/-- What the handler has delivered since `x`, and what the loop of `uartintr` has made of it. -/
def Served (L : Layout) (x y : Driver) : Prop :=
  ∃ rx, y.delivered = x.delivered ++ rx ∧ ∀ cs,
    (uartintrLoop L (rx ++ cs)).run (x.kernel.device uart0Irq (rx ++ cs)) =
      (uartintrLoop L cs).run (y.kernel.device uart0Irq cs)

theorem Served.step {L : Layout} {x y z : Driver} (h : Served L x y) (hy : y.Ok)
    (hset : ∀ k, y.pc ≠ .init k) (hstep : HandlerStep L y z) :
    Served L x z ∧ ∀ k, z.pc ≠ .init k := by
  obtain ⟨rx, hdel, hrun⟩ := h
  obtain ⟨hstep, hidle⟩ := hstep
  cases hstep with
  | receive c => exact ⟨⟨rx, hdel, hrun⟩, hset⟩
  | raise hi => exact ⟨⟨rx, hdel, hrun⟩, hset⟩
  | init hpc hw => exact absurd hpc (hset _)
  | work hpc s => exact absurd hpc hidle
  | trap hpc hirq => exact absurd hpc hidle
  | claim hpc =>
    refine ⟨⟨rx, hdel, hrun⟩, fun k => ?_⟩
    dsimp only
    split_ifs <;> simp
  | isr hpc => exact ⟨⟨rx, hdel, hrun⟩, by simp⟩
  | lsr hpc =>
    refine ⟨⟨rx, hdel, hrun⟩, fun k => ?_⟩
    dsimp only
    split_ifs <;> simp
  | rhr hpc => exact ⟨⟨rx, hdel, hrun⟩, by simp⟩
  | @deliver c s hpc hc =>
    refine ⟨⟨rx ++ [c], ?_, fun cs => ?_⟩, by simp⟩
    · show y.delivered ++ [c] = _
      rw [hdel, List.append_assoc]
    · rw [List.append_assoc]
      refine (hrun ([c] ++ cs)).trans ?_
      -- the round of the loop for `c`
      exact Prog.run_bind_of_ok ((blind_consoleintr uart0Irq cs L c).run hc)
  | unexpected hpc hrun => exact (hy.at hpc).elim
  | complete hpc => exact ⟨⟨rx, hdel, hrun⟩, by simp⟩

/-- **The model of the devices is right.** At every point from the claim to the completion, whatever
the devices do meanwhile, the handler has done to the kernel what `devintr` does when `plic_claim`
returns the UART and `uartgetc` finds the characters that the handler has delivered. -/
theorem handler_refines_devintr {L : Layout} {x y z : Driver} (hx : x.AtReset)
    (hrun : Relation.ReflTransGen (DriverStep L) x y) (hy : y.pc = .claim)
    (hcause : y.kernel.hart.scause = causeExternal)
    (hhandler : Relation.ReflTransGen (HandlerStep L) y z) :
    ∃ rx, z.delivered = y.delivered ++ rx ∧
      (devintr L).run (y.kernel.device uart0Irq rx) = .ok (1, z.kernel.device uart0Irq []) := by
  have hok : y.Ok := by
    clear hhandler hy hcause
    induction hrun with
    | refl => exact hx.ok
    | tail _ hstep ih => exact ih.step hstep
  have hserved : z.Ok ∧ Served L y z ∧ ∀ k, z.pc ≠ .init k := by
    induction hhandler with
    | refl => exact ⟨hok, ⟨[], (List.append_nil _).symm, fun cs => rfl⟩, by simp [hy]⟩
    | tail _ hstep ih =>
      obtain ⟨hok', hserved, hset⟩ := ih
      exact ⟨hok'.step hstep.1, hserved.step hok' hset hstep⟩
  obtain ⟨-, ⟨rx, hdel, hloop⟩, -⟩ := hserved
  refine ⟨rx, hdel, ?_⟩
  have hloop := hloop []
  rw [List.append_nil] at hloop
  have huart : (uartintr L).run (y.kernel.device uart0Irq rx) =
      .ok ((), z.kernel.device uart0Irq []) := hloop
  have hcause' : (y.kernel.device uart0Irq rx).hart.scause = causeExternal := hcause
  have hclaim : (y.kernel.device uart0Irq rx).core.claim = uart0Irq := rfl
  rw [devintr, getHart, Prog.run_read_bind, if_pos hcause', getCore, Prog.run_read_bind,
    if_pos hclaim, Prog.run_bind_of_ok huart]
  rfl

/-- The handler at work on one character. -/
theorem exists_handled {L : Layout} {y : Driver} {c : UInt8} {s : K} (hpc : y.pc = .claim)
    (hready : y.dev.Ready) (hpending : y.dev.plic.pending uartSource = true)
    (hrx : y.dev.uart.rx = [c]) (hc : (consoleintr L c).run y.kernel = .ok ((), s)) :
    ∃ z, Relation.ReflTransGen (HandlerStep L) y z ∧ z.pc = .idle ∧
      z.delivered = y.delivered ++ [c] ∧ z.kernel = s := by
  obtain ⟨pc, k, d, del⟩ := y
  obtain rfl : pc = .claim := hpc
  have hclaim := DriverStep.claim (L := L) (x := ⟨.claim, k, d, del⟩) rfl
  rw [Devices.read32_sclaim hready hpending, if_pos rfl] at hclaim
  -- the claim changes the PLIC only
  obtain ⟨d₁, hd₁, hclaim⟩ : ∃ d₁ : Devices, d₁.uart = d.uart ∧
      DriverStep L ⟨.claim, k, d, del⟩ ⟨.isr, k, d₁, del⟩ := by
    refine ⟨_, ?_, hclaim⟩
    rfl
  have hisr := DriverStep.isr (L := L) (x := ⟨.isr, k, d₁, del⟩) rfl
  have hrx₁ : d₁.uart.rx = [c] := by
    rw [hd₁]
    exact hrx
  have hlsr := DriverStep.lsr (L := L) (x := ⟨.lsr, k, d₁, del⟩) rfl
  rw [if_pos (Devices.lsr_ready hrx₁)] at hlsr
  have hrhr := DriverStep.rhr (L := L) (x := ⟨.rhr, k, d₁, del⟩) rfl
  rw [Devices.read8_rhr hrx₁] at hrhr
  obtain ⟨d₂, hd₂, hrhr⟩ : ∃ d₂ : Devices, d₂.uart.rx = [] ∧
      DriverStep L ⟨.rhr, k, d₁, del⟩ ⟨.deliver c, k, d₂, del⟩ := by
    refine ⟨_, ?_, hrhr⟩
    rw [Devices.settle_uart]
  have hdeliver := DriverStep.deliver (x := ⟨.deliver c, k, d₂, del⟩) rfl hc
  -- the FIFO is empty now, so the second look at the status ends the loop
  have hlsr' := DriverStep.lsr (L := L) (x := ⟨.lsr, s, d₂, del ++ [c]⟩) rfl
  rw [if_neg (Devices.lsr_not_ready hd₂)] at hlsr'
  have hcomplete := DriverStep.complete (L := L)
    (x := ⟨.complete uart0Irq, s, d₂, del ++ [c]⟩) rfl
  have hrun := Relation.ReflTransGen.single (r := HandlerStep L) ⟨hclaim, by simp⟩
  have hrun := ((hrun.tail ⟨hisr, by simp⟩).tail ⟨hlsr, by simp⟩).tail ⟨hrhr, by simp⟩
  have hrun := ((hrun.tail ⟨hdeliver, by simp⟩).tail ⟨hlsr', by simp⟩).tail ⟨hcomplete, by simp⟩
  exact ⟨_, hrun, rfl, rfl, rfl⟩

/-- The kernel in the handler of an external interrupt. -/
def interruptedK : K :=
  ⟨onePageCore, { Hart.plain .virt with sie := false, scause := causeExternal }⟩

/-- A letter is echoed and goes to the ring. -/
theorem run_consoleintr_letter : ∃ t, (consoleintr .virt 97).run interruptedK = .ok ((), t) ∧
    t.core.cons = interruptedK.core.cons.push 97 ∧ t.core.tx = [97] := ⟨_, rfl, rfl, rfl⟩

/-- A letter is typed and the handler delivers it to the ring. -/
theorem handler_refines_devintr_letter : ∃ y z : Driver,
    Relation.ReflTransGen (DriverStep .virt) (resetDriver interruptedK) y ∧
    Relation.ReflTransGen (HandlerStep .virt) y z ∧ z.pc = .idle ∧
    z.delivered = y.delivered ++ [97] ∧ z.kernel.core.cons = y.kernel.core.cons.push 97 ∧
    z.kernel.core.tx = [97] ∧
    ∃ rx, z.delivered = y.delivered ++ rx ∧ (devintr .virt).run (y.kernel.device uart0Irq rx) =
      .ok (1, z.kernel.device uart0Irq []) := by
  obtain ⟨y, hrun, hpc, hk, hready, hpending, hrx⟩ : ∃ y : Driver,
      Relation.ReflTransGen (DriverStep .virt) (resetDriver interruptedK) y ∧ y.pc = .claim ∧
      y.kernel = interruptedK ∧ y.dev.Ready ∧ y.dev.plic.pending uartSource = true ∧
      y.dev.uart.rx = [97] := by
    have hrun := ((run_deviceInit .virt interruptedK).tail (.receive _ 97)).tail
      (.trap rfl (by decide))
    refine ⟨_, hrun, rfl, rfl, ⟨?_, rfl, ?_, rfl⟩, ?_, rfl⟩
    all_goals decide
  obtain ⟨t, hc, hcons, htx⟩ := run_consoleintr_letter
  rw [← hk] at hc hcons
  obtain ⟨z, hhandler, hz, hdel, rfl⟩ := exists_handled hpc hready hpending hrx hc
  exact ⟨y, z, hrun, hhandler, hz, hdel, hcons, htx, handler_refines_devintr ⟨rfl, rfl, rfl⟩ hrun
    hpc (by rw [hk]; rfl) hhandler⟩

end OsKernel
