/-
  Devices/Uart.lean --- the console, from uart.rs.

  A byte that is written while the FIFO is full is lost, and so may be what is in flight
  when the settings change.  The driver polls for both, and what is printed reaches the
  line whole and in order, with a carriage return for each line feed that a reader can
  take out again.
-/
import TheRack.Lib.Mmio

set_option autoImplicit false

namespace TheRack

open Lib Lib.Mmio

/-- `struct Uart`. -/
structure Uart where
  base : Nat

namespace Uart

/-- `u8`. -/
abbrev Byte := BitVec 8

/-- `DR`. -/
def dr : Nat := 0x00

/-- `FR`. -/
def fr : Nat := 0x18

/-- `IBRD`. -/
def ibrd : Nat := 0x24

/-- `FBRD`. -/
def fbrd : Nat := 0x28

/-- `LCR_H`. -/
def lcrH : Nat := 0x2c

/-- `CR`. -/
def cr : Nat := 0x30

/-- `IMSC`. -/
def imsc : Nat := 0x38

/-- `ICR`. -/
def icr : Nat := 0x44

/-- `FR_BUSY`. -/
def frBusy : BitVec 32 := 1 <<< 3

/-- `FR_TXFF`. -/
def frTxff : BitVec 32 := 1 <<< 5

/-- `LCR_H_FEN`. -/
def lcrHFen : BitVec 32 := 1 <<< 4

/-- `LCR_H_WLEN_8`. -/
def lcrHWlen8 : BitVec 32 := 3 <<< 5

/-- `CR_UARTEN`. -/
def crUarten : BitVec 32 := 1 <<< 0

/-- `CR_TXE`. -/
def crTxe : BitVec 32 := 1 <<< 8

/-- `CR_RXE`. -/
def crRxe : BitVec 32 := 1 <<< 9

/-- `b'\n'`. -/
def lineFeed : Byte := 10

/-- `b'\r'`. -/
def carriageReturn : Byte := 13

/-- `write`. -/
def write (u : Uart) (offset : Nat) (value : BitVec 32) : Driver Unit := .put (u.base + offset) value

/-- `Uart::init`. -/
def init (u : Uart) : Driver Unit := do
  u.write cr 0
  Driver.await (u.base + fr) fun v => v &&& frBusy == 0
  u.write ibrd 13
  u.write fbrd 1
  u.write lcrH (lcrHFen ||| lcrHWlen8)
  u.write imsc 0
  u.write icr 0x7ff
  u.write cr (crUarten ||| crTxe ||| crRxe)

/-- `put_byte`. -/
def putByte (u : Uart) (byte : Byte) : Driver Unit := do
  Driver.await (u.base + fr) fun v => v &&& frTxff == 0
  u.write dr (byte.setWidth 32)

/-- `write_str`. -/
def writeStr (u : Uart) (text : List Byte) : Driver PUnit :=
  text.forM fun byte => do
    if byte = lineFeed then u.putByte carriageReturn
    u.putByte byte

/-- `raw_put`. -/
def rawPut (base : Nat) (byte : Byte) : Driver Unit := do
  Driver.await (base + fr) fun v => v &&& frTxff == 0
  Driver.put (base + dr) (byte.setWidth 32)

/-- `emergency_print`. -/
def emergencyPrint (base : Nat) (message : List Byte) : Driver PUnit :=
  message.forM fun byte => do
    if byte = lineFeed then rawPut base carriageReturn
    rawPut base byte

/-- `adopt`. -/
def adopt (base : Nat) : Driver Uart := do
  let console : Uart := ⟨base⟩
  console.init
  return console

/-! ## The text on the line -/

/-- A text with a carriage return before each line feed. -/
def crlf (text : List Byte) : List Byte :=
  text.flatMap fun byte => if byte = lineFeed then [carriageReturn, byte] else [byte]

/-- What a reader makes of it. -/
def plain : List Byte → List Byte
  | [] => []
  | [b] => [b]
  | b :: c :: l => if b = carriageReturn ∧ c = lineFeed then plain (c :: l) else b :: plain (c :: l)

theorem plain_lineFeed (l : List Byte) : plain (lineFeed :: l) = lineFeed :: plain l := by
  cases l with
  | nil => rfl
  | cons c l => exact if_neg fun h => absurd h.1 (by decide)

/-- The line feeds that are in the text have a carriage return of their own. -/
theorem crlf_ne (text l : List Byte) : crlf text ≠ lineFeed :: l := by
  cases text with
  | nil => exact nofun
  | cons b text =>
    rw [crlf, List.flatMap_cons]
    by_cases hb : b = lineFeed
    · simp only [if_pos hb, List.cons_append]
      intro h
      exact absurd (List.cons.inj h).1 (by decide)
    · simp only [if_neg hb, List.cons_append]
      intro h
      exact hb (List.cons.inj h).1

theorem plain_cons {b : Byte} {l : List Byte} (h : ∀ l', l ≠ lineFeed :: l') : plain (b :: l) = b :: plain l := by
  cases l with
  | nil => rfl
  | cons c l =>
    refine if_neg fun hbc => ?_
    exact h l (by rw [hbc.2])

/-- The reader has the text, also where that has carriage returns. -/
theorem plain_crlf (text : List Byte) : plain (crlf text) = text := by
  induction text with
  | nil => rfl
  | cons b text ih =>
    have hcons : crlf (b :: text) = (if b = lineFeed then [carriageReturn, b] else [b]) ++ crlf text :=
      List.flatMap_cons
    by_cases hb : b = lineFeed
    · rw [hcons, if_pos hb, hb]
      have hpair : plain ([carriageReturn, lineFeed] ++ crlf text) = plain (lineFeed :: crlf text) :=
        if_pos ⟨rfl, rfl⟩
      rw [hpair, plain_lineFeed, ih]
    · rw [hcons, if_neg hb, List.singleton_append, plain_cons (crlf_ne text), ih]

theorem crlf_append (t t' : List Byte) : crlf (t ++ t') = crlf t ++ crlf t' := List.flatMap_append

/-! ## A PL011 -/

/-- The registers that hold how it is set up. -/
structure Settings where
  ibrd : BitVec 32
  fbrd : BitVec 32
  lcrH : BitVec 32
  cr : BitVec 32
  imsc : BitVec 32
  deriving DecidableEq

/-- It sends what it is given. -/
def Settings.Sends (g : Settings) : Prop := g.cr &&& crUarten ≠ 0 ∧ g.cr &&& crTxe ≠ 0

/-- 115200 baud, 8N1, FIFOs on, and no interrupts. -/
def console : Settings := ⟨13, 1, 0x70, 0x301, 0⟩

/-- What there is to know about a PL011. -/
structure Line where
  settings : Settings
  full : Bool
  busy : Bool
  /-- the bytes that are on the line or on their way to it -/
  out : List Byte

/-- Nothing new has been given to it. -/
structure Line.Quiet (g g' : Line) : Prop where
  out : g'.out = g.out
  full : g'.full = true → g.full = true
  busy : g'.busy = true → g.busy = true

variable {σ : Type} {D : σ → Access → σ → Prop} {u : Uart} {line : σ → Line}

/-- The device is a PL011: it shows whether there is room and whether it has come to
rest, takes a byte when there is room, and loses nothing while it is set up at rest. -/
structure Conforms (D : σ → Access → σ → Prop) (u : Uart) (line : σ → Line) : Prop where
  shows : ∀ s v s', D s (.read (u.base + fr) v) s' →
    (line s).Quiet (line s') ∧ (line s').settings = (line s).settings ∧
      (v &&& frTxff = 0 → (line s').full = false) ∧ (v &&& frBusy = 0 → (line s').busy = false)
  takes : ∀ s v s', D s (.write (u.base + dr) v) s' → (line s).full = false → (line s).settings.Sends →
    (line s').settings = (line s).settings ∧ (line s').out = (line s).out ++ [v.setWidth 8]
  switches : ∀ s v s', D s (.write (u.base + cr) v) s' →
    (line s).Quiet (line s') ∧ (line s').settings = { (line s).settings with cr := v }
  divides : ∀ s v s', D s (.write (u.base + ibrd) v) s' → (line s).busy = false → (line s).settings.cr = 0 →
    (line s).Quiet (line s') ∧ (line s').settings = { (line s).settings with ibrd := v }
  dividesFurther : ∀ s v s', D s (.write (u.base + fbrd) v) s' → (line s).busy = false → (line s).settings.cr = 0 →
    (line s).Quiet (line s') ∧ (line s').settings = { (line s).settings with fbrd := v }
  frames : ∀ s v s', D s (.write (u.base + lcrH) v) s' → (line s).busy = false → (line s).settings.cr = 0 →
    (line s).Quiet (line s') ∧ (line s').settings = { (line s).settings with lcrH := v }
  masks : ∀ s v s', D s (.write (u.base + imsc) v) s' →
    (line s).Quiet (line s') ∧ (line s').settings = { (line s).settings with imsc := v }
  clears : ∀ s v s', D s (.write (u.base + icr) v) s' →
    (line s).Quiet (line s') ∧ (line s').settings = (line s).settings

namespace Line.Quiet

variable {g g' g'' : Line}

theorem trans (h : g.Quiet g') (h' : g'.Quiet g'') : g.Quiet g'' :=
  ⟨h'.out.trans h.out, fun hf => h.full (h'.full hf), fun hb => h.busy (h'.busy hb)⟩

theorem rest (h : g.Quiet g') (hb : g.busy = false) : g'.busy = false := by
  cases hb' : g'.busy with
  | false => rfl
  | true =>
    rw [h.busy hb'] at hb
    exact nomatch hb

end Line.Quiet

theorem await_zero {v m : BitVec 32} (h : (v &&& m == 0) = true) : v &&& m = 0 := by simpa using h

/-- Setting it up gives it nothing and loses nothing. -/
theorem init_runs (h : Conforms D u line) {I : σ → Prop} {s : σ} (hI : ∀ s', (line s').out = (line s).out → I s') :
    Runs D I s u.init fun _ s' => (line s').out = (line s).out ∧ (line s').settings = console := by
  unfold init
  simp only [write, Driver.put_bind, Driver.await_bind]
  refine .write (hI s rfl) fun s₁ h₁ => ?_
  obtain ⟨q₁, g₁⟩ := h.switches _ _ _ h₁
  refine .poll (J := fun s' => (line s).Quiet (line s') ∧ (line s').settings.cr = 0) ⟨q₁, by rw [g₁]⟩
    (fun s' hs' => hI s' hs'.1.out) (fun s' v s'' hs' hd _ => ?_) fun s' v s₂ hs' hd hv => ?_
  · obtain ⟨q, g, -⟩ := h.shows _ _ _ hd
    exact ⟨hs'.1.trans q, by rw [g, hs'.2]⟩
  · obtain ⟨q₂, g₂, -, hrest⟩ := h.shows _ _ _ hd
    have b₂ := hrest (await_zero hv)
    have q₂ := hs'.1.trans q₂
    have c₂ : (line s₂).settings.cr = 0 := by rw [g₂, hs'.2]
    refine .write (hI _ q₂.out) fun s₃ h₃ => ?_
    obtain ⟨q, g₃⟩ := h.divides _ _ _ h₃ b₂ c₂
    have q₃ := q₂.trans q
    have b₃ := q.rest b₂
    refine .write (hI _ q₃.out) fun s₄ h₄ => ?_
    obtain ⟨q, g₄⟩ := h.dividesFurther _ _ _ h₄ b₃ (by rw [g₃, c₂])
    have q₄ := q₃.trans q
    have b₄ := q.rest b₃
    refine .write (hI _ q₄.out) fun s₅ h₅ => ?_
    obtain ⟨q, g₅⟩ := h.frames _ _ _ h₅ b₄ (by rw [g₄, g₃, c₂])
    have q₅ := q₄.trans q
    refine .write (hI _ q₅.out) fun s₆ h₆ => ?_
    obtain ⟨q, g₆⟩ := h.masks _ _ _ h₆
    have q₆ := q₅.trans q
    refine .write (hI _ q₆.out) fun s₇ h₇ => ?_
    obtain ⟨q, g₇⟩ := h.clears _ _ _ h₇
    have q₇ := q₆.trans q
    refine .write (hI _ q₇.out) fun s₈ h₈ => ?_
    obtain ⟨q, g₈⟩ := h.switches _ _ _ h₈
    have q₈ := q₇.trans q
    refine .done (hI _ q₈.out) ⟨q₈.out, ?_⟩
    rw [g₈, g₇, g₆, g₅, g₄, g₃]
    rfl

/-- A byte is given to it when there is room. -/
theorem putByte_runs (h : Conforms D u line) {I : σ → Prop} {s : σ} (hsends : (line s).settings.Sends) {b : Byte}
    (hI : ∀ s', (line s').out = (line s).out ∨ (line s').out = (line s).out ++ [b] → I s') :
    Runs D I s (u.putByte b) fun _ s' =>
      (line s').settings = (line s).settings ∧ (line s').out = (line s).out ++ [b] := by
  unfold putByte
  simp only [write, Driver.await_bind]
  refine .poll (J := fun s' => (line s').out = (line s).out ∧ (line s').settings = (line s).settings) ⟨rfl, rfl⟩
    (fun s' hs' => hI s' (.inl hs'.1)) (fun s' v s'' hs' hd _ => ?_) fun s' v s₁ hs' hd hv => ?_
  · obtain ⟨q, g, -⟩ := h.shows _ _ _ hd
    exact ⟨q.out.trans hs'.1, g.trans hs'.2⟩
  · obtain ⟨q, g, hroom, -⟩ := h.shows _ _ _ hd
    have hout := q.out.trans hs'.1
    have g₁ := g.trans hs'.2
    refine .write (hI _ (.inl hout)) fun s₂ h₂ => ?_
    obtain ⟨g₂, o₂⟩ := h.takes _ _ _ h₂ (hroom (await_zero hv)) (by rwa [g₁])
    have hbyte : (b.setWidth 32).setWidth 8 = b := by
      rw [BitVec.setWidth_setWidth_of_le b (by decide), BitVec.setWidth_eq]
    have hput : (line s₂).out = (line s).out ++ [b] := by rw [o₂, hout, hbyte]
    exact .done (hI _ (.inr hput)) ⟨g₂.trans g₁, hput⟩

/-- What is out at some point of a text. -/
def Within (before text : List Byte) (g : Line) : Prop := before <+: g.out ∧ g.out <+: before ++ text

/-- A line feed goes out as two bytes. -/
theorem char_runs (h : Conforms D u line) {s : σ} (hsends : (line s).settings.Sends) (b : Byte) :
    Runs D (fun s' => ∃ l, (line s').out = (line s).out ++ l ∧ l <+: crlf [b]) s
      (do
        if b = lineFeed then u.putByte carriageReturn
        u.putByte b) fun _ s' =>
      (line s').settings = (line s).settings ∧ (line s').out = (line s).out ++ crlf [b] := by
  by_cases hb : b = lineFeed
  · have hpair : crlf [b] = [carriageReturn, b] := by
      rw [hb]
      rfl
    rw [if_pos hb, hpair]
    refine .bind ((putByte_runs h hsends fun s' hs' => ?_).mono (fun _ hi => hi) fun _ s₂ h₂ => ?_)
    · rcases hs' with hs' | hs'
      · exact ⟨[], by rw [hs', List.append_nil], List.nil_prefix⟩
      · exact ⟨[carriageReturn], hs', ⟨[b], rfl⟩⟩
    · refine (putByte_runs h (by rwa [h₂.1]) fun s' hs' => ?_).mono (fun _ hi => hi) fun _ s₃ h₃ => ?_
      · rw [h₂.2] at hs'
        rcases hs' with hs' | hs'
        · exact ⟨[carriageReturn], hs', ⟨[b], rfl⟩⟩
        · exact ⟨[carriageReturn, b], by rw [hs', List.append_assoc]; rfl, List.prefix_rfl⟩
      · refine ⟨h₃.1.trans h₂.1, ?_⟩
        rw [h₃.2, h₂.2, List.append_assoc]
        rfl
  · have hone : crlf [b] = [b] := by
      rw [crlf, List.flatMap_singleton, if_neg hb]
    rw [if_neg hb, hone]
    refine (putByte_runs h hsends fun s' hs' => ?_).mono (fun _ hi => hi) fun _ s₂ h₂ => h₂
    rcases hs' with hs' | hs'
    · exact ⟨[], by rw [hs', List.append_nil], List.nil_prefix⟩
    · exact ⟨[b], hs', List.prefix_rfl⟩

theorem writeStr_runs (h : Conforms D u line) {s : σ} (hsends : (line s).settings.Sends) (text : List Byte) :
    Runs D (fun s' => Within (line s).out (crlf text) (line s')) s (u.writeStr text) fun _ s' =>
      (line s').settings = (line s).settings ∧ (line s').out = (line s).out ++ crlf text := by
  refine .forM (fun pre s' => (line s').settings = (line s).settings ∧ (line s').out = (line s).out ++ crlf pre)
    ⟨rfl, (List.append_nil _).symm⟩ (fun s' hs' => ?_) fun pre b post htext s₁ h₁ => ?_
  · rw [Within, hs'.2]
    exact ⟨List.prefix_append _ _, List.prefix_rfl⟩
  · refine (char_runs h (by rwa [h₁.1]) b).mono (fun s' hs' => ?_) fun _ s' hs' => ?_
    · obtain ⟨l, hg, hl⟩ := hs'
      rw [Within, hg, h₁.2, htext, List.append_cons, crlf_append, crlf_append, List.append_assoc, List.append_assoc]
      refine ⟨List.prefix_append _ _, ?_⟩
      rw [List.prefix_append_right_inj, List.prefix_append_right_inj]
      exact hl.trans (List.prefix_append _ _)
    · rw [crlf_append, ← List.append_assoc, ← h₁.1, ← h₁.2]
      exact hs'

/-- Without the lock or the translation of addresses, but the same bytes. -/
theorem emergencyPrint_eq (message : List Byte) : emergencyPrint u.base message = u.writeStr message := rfl

/-! ## A session -/

/-- What is done with the console once it is set up. -/
inductive Use
  | print (text : List Byte)
  | emergency (text : List Byte)
  /-- it is found where it was -/
  | adopt

/-- The text of it. -/
def Use.text : Use → List Byte
  | print text => text
  | emergency text => text
  | adopt => []

/-- One use of the console. -/
def use (u : Uart) : Use → Driver PUnit
  | .print text => u.writeStr text
  | .emergency text => emergencyPrint u.base text
  | .adopt => do
    let _ ← Uart.adopt u.base
    return ()

/-- The console from when it is set up. -/
def session (u : Uart) (uses : List Use) : Driver PUnit := do
  u.init
  uses.forM u.use

/-- All that is said in it. -/
def said (uses : List Use) : List Byte := uses.flatMap Use.text

theorem said_append (l l' : List Use) : said (l ++ l') = said l ++ said l' := List.flatMap_append

theorem Within.start {before text : List Byte} {g : Line} (h : g.out = before) : Within before text g := by
  rw [Within, h]
  exact ⟨List.prefix_rfl, List.prefix_append _ _⟩

theorem sends_console : console.Sends := by constructor <;> decide

theorem use_runs (h : Conforms D u line) {s : σ} (hset : (line s).settings = console) (x : Use) :
    Runs D (fun s' => Within (line s).out (crlf x.text) (line s')) s (u.use x) fun _ s' =>
      (line s').settings = console ∧ (line s').out = (line s).out ++ crlf x.text := by
  have hsends : (line s).settings.Sends := by
    rw [hset]
    exact sends_console
  cases x with
  | print text => exact (writeStr_runs h hsends text).mono (fun _ hi => hi) fun _ s' hs' => ⟨hs'.1.trans hset, hs'.2⟩
  | emergency text =>
    have hsame : u.use (.emergency text) = u.writeStr text := emergencyPrint_eq text
    rw [hsame]
    exact (writeStr_runs h hsends text).mono (fun _ hi => hi) fun _ s' hs' => ⟨hs'.1.trans hset, hs'.2⟩
  | adopt =>
    have hinit := init_runs h (s := s) (I := fun s' => Within (line s).out (crlf []) (line s')) fun s' => Within.start
    refine .bind (.bind (hinit.mono (fun _ hi => hi) fun _ s' hs' => ?_))
    refine .done (.start hs'.1) (.done (.start hs'.1) ⟨hs'.2, ?_⟩)
    rw [hs'.1]
    exact (List.append_nil _).symm

theorem session_runs (h : Conforms D u line) (uses : List Use) (s : σ) :
    Runs D (fun s' => Within (line s).out (crlf (said uses)) (line s')) s (u.session uses) fun _ s' =>
      (line s').settings = console ∧ (line s').out = (line s).out ++ crlf (said uses) := by
  refine .bind ((init_runs h fun s' => Within.start).mono (fun _ hi => hi) fun _ s₁ h₁ => ?_)
  refine .forM (fun pre s' => (line s').settings = console ∧ (line s').out = (line s).out ++ crlf (said pre))
    ⟨h₁.2, by rw [h₁.1]; exact (List.append_nil _).symm⟩ (fun s' hs' => ?_) fun pre x post huses s₂ h₂ => ?_
  · rw [Within, hs'.2]
    exact ⟨List.prefix_append _ _, List.prefix_rfl⟩
  · have hone : said [x] = x.text := List.flatMap_singleton ..
    refine (use_runs h h₂.1 x).mono (fun s' hs' => ?_) fun _ s' hs' => ⟨hs'.1, ?_⟩
    · rw [Within, h₂.2] at hs'
      refine ⟨(List.prefix_append _ _).trans hs'.1, hs'.2.trans ?_⟩
      rw [huses, List.append_cons, said_append, said_append, hone, crlf_append, crlf_append, List.append_assoc]
      rw [List.prefix_append_right_inj]
      exact List.prefix_append _ _
    · rw [hs'.2, h₂.2, said_append, crlf_append, List.append_assoc, hone]

/-- The device answers everything, makes room while it sends, and comes to rest when it
is switched off, by the time its flags were read `bound` times. -/
structure Prompt (D : σ → Access → σ → Prop) (u : Uart) (line : σ → Line) (left : σ → Nat) (bound : Nat) : Prop where
  reads : ∀ s offset, ∃ v s', D s (.read offset v) s'
  writes : ∀ s offset v, ∃ s', D s (.write offset v) s'
  left_le : ∀ s, left s ≤ bound
  drains : ∀ s v s', D s (.read (u.base + fr) v) s' → (line s).settings.Sends → v &&& frTxff ≠ 0 → left s' < left s
  rests : ∀ s v s', D s (.read (u.base + fr) v) s' → (line s).settings.cr = 0 → v &&& frBusy ≠ 0 → left s' < left s

variable {left : σ → Nat} {bound : Nat}

theorem init_finishes (h : Conforms D u line) (hp : Prompt D u line left bound) (s : σ) :
    Finishes D (6 + 1 + bound + 1) s u.init := by
  unfold init
  simp only [write, Driver.put_bind, Driver.await_bind]
  refine .write (hp.writes _ _ _) fun s₁ h₁ => ?_
  refine (Finishes.poll (n := 6) (fun m s => (line s).settings.cr = 0 ∧ left s = m) ⟨?_, rfl⟩
    (fun m s _ => hp.reads _ _) (fun m s v s' hs hd hv => ?_) fun m s v s' _ _ _ => ?_).mono
    (Nat.add_le_add_left (hp.left_le s₁) _)
  · rw [(h.switches _ _ _ h₁).2]
  · obtain ⟨hcr, rfl⟩ := hs
    obtain ⟨-, g, -⟩ := h.shows _ _ _ hd
    exact ⟨left s', hp.rests s v s' hd hcr (by simpa using hv), by rw [g, hcr], rfl⟩
  · exact .write (hp.writes _ _ _) fun _ _ => .write (hp.writes _ _ _) fun _ _ => .write (hp.writes _ _ _) fun _ _ =>
      .write (hp.writes _ _ _) fun _ _ => .write (hp.writes _ _ _) fun _ _ => .write (hp.writes _ _ _) fun _ _ =>
        .done _

theorem putByte_finishes (h : Conforms D u line) (hp : Prompt D u line left bound) {s : σ}
    (hsends : (line s).settings.Sends) (b : Byte) : Finishes D (1 + 1 + bound) s (u.putByte b) := by
  unfold putByte
  simp only [write, Driver.await_bind]
  refine (Finishes.poll (n := 1) (fun m s => (line s).settings.Sends ∧ left s = m) ⟨hsends, rfl⟩
    (fun m s _ => hp.reads _ _) (fun m s v s' hs hd hv => ?_) fun m s v s' _ _ _ => ?_).mono
    (Nat.add_le_add_left (hp.left_le s) _)
  · obtain ⟨hsends, rfl⟩ := hs
    obtain ⟨-, g, -⟩ := h.shows _ _ _ hd
    exact ⟨left s', hp.drains s v s' hd hsends (by simpa using hv), by rwa [g], rfl⟩
  · exact .write (hp.writes _ _ _) fun _ _ => .done _

theorem char_finishes (h : Conforms D u line) (hp : Prompt D u line left bound) {s : σ}
    (hsends : (line s).settings.Sends) (b : Byte) :
    Finishes D (2 * (1 + 1 + bound)) s
      (do
        if b = lineFeed then u.putByte carriageReturn
        u.putByte b) := by
  by_cases hb : b = lineFeed
  · rw [if_pos hb, Nat.two_mul]
    refine .bind (putByte_finishes h hp hsends _) ?_
    refine (putByte_runs h hsends fun _ _ => trivial).mono (fun _ hi => hi) fun _ s' hs' => ?_
    exact putByte_finishes h hp (by rwa [hs'.1]) b
  · rw [if_neg hb]
    exact (putByte_finishes h hp hsends b).mono (by omega)

theorem writeStr_finishes (h : Conforms D u line) (hp : Prompt D u line left bound) {s : σ}
    (hsends : (line s).settings.Sends) (text : List Byte) :
    Finishes D (text.map fun _ => 2 * (1 + 1 + bound)).sum s (u.writeStr text) := by
  refine .forM (fun _ s' => (line s').settings.Sends) hsends (fun pre b post _ s' hs' => ?_)
    fun pre b post _ s' hs' => char_finishes h hp hs' b
  exact (char_runs h hs' b).mono (fun _ _ => trivial) fun _ s'' hs'' => by rwa [hs''.1]

/-- How many accesses a use may take. -/
def Use.cost (bound : Nat) : Use → Nat
  | print text => (text.map fun _ => 2 * (1 + 1 + bound)).sum
  | emergency text => (text.map fun _ => 2 * (1 + 1 + bound)).sum
  | adopt => 6 + 1 + bound + 1

theorem use_finishes (h : Conforms D u line) (hp : Prompt D u line left bound) {s : σ}
    (hset : (line s).settings = console) (x : Use) : Finishes D (x.cost bound) s (u.use x) := by
  have hsends : (line s).settings.Sends := by
    rw [hset]
    exact sends_console
  cases x with
  | print text => exact writeStr_finishes h hp hsends text
  | emergency text =>
    have hsame : u.use (.emergency text) = u.writeStr text := emergencyPrint_eq text
    rw [hsame]
    exact writeStr_finishes h hp hsends text
  | adopt =>
    have hinit := (init_runs h (s := s) fun _ _ => trivial).ends
    refine Finishes.bind (m := 0) (Finishes.bind (m := 0) (init_finishes h hp s) ?_) ?_
    · exact hinit.mono (fun _ hi => hi) fun _ s' _ => .done _
    · exact .bind (hinit.mono (fun _ hi => hi) fun _ s' _ => .done trivial (.done _))

theorem session_finishes (h : Conforms D u line) (hp : Prompt D u line left bound) (uses : List Use) (s : σ) :
    Finishes D (6 + 1 + bound + 1 + (uses.map (Use.cost bound)).sum) s (u.session uses) := by
  refine .bind (init_finishes h hp s) ((init_runs h fun _ _ => trivial).mono (fun _ hi => hi) fun _ s₁ h₁ => ?_)
  refine .forM (fun _ s' => (line s').settings = console) h₁.2 (fun pre x post _ s' hs' => ?_)
    fun pre x post _ s' hs' => use_finishes h hp hs' x
  exact (use_runs h hs' x).mono (fun _ _ => trivial) fun _ s'' hs'' => hs''.1

/-- However a PL011 delays the driver, at every point of a session what it was given is a
beginning of the text, with nothing lost and nothing twice; in the end it is all of it,
for a reader to take apart again; and if it is given time the session gets there. -/
theorem console_says (h : Conforms D u line) (uses : List Use) {s s' : σ} {l : List Access} {p : Driver PUnit}
    (hpath : Path D s l s') (hrun : (u.session uses).run l = some p) :
    Within (line s).out (crlf (said uses)) (line s') ∧
    (∀ a, p = .done a → (line s').settings = console ∧
      ∃ t, (line s').out = (line s).out ++ t ∧ plain t = said uses) ∧
    ∀ (left : σ → Nat) (bound : Nat), Prompt D u line left bound →
      l.length ≤ 6 + 1 + bound + 1 + (uses.map (Use.cost bound)).sum ∧
      ∃ l' a s'', Path D s' l' s'' ∧ p.run l' = some (.done a) := by
  obtain ⟨hwithin, hdone⟩ := session_runs h uses s l p s' hpath hrun
  refine ⟨hwithin, fun a ha => ?_, fun left bound hp => (session_finishes h hp uses s).ends hpath hrun⟩
  obtain ⟨hset, hout⟩ := hdone a ha
  exact ⟨hset, crlf (said uses), hout, plain_crlf _⟩

/-- A PL011 at 0 that holds one byte, until its flags are read. -/
structure Sample where
  settings : Settings
  held : Option Byte
  wire : List Byte

namespace Sample

/-- The byte goes out. -/
def drained (g : Sample) : Sample := { g with held := none, wire := g.wire ++ g.held.toList }

/-- What there is to know about it. -/
def shown (g : Sample) : Line := ⟨g.settings, g.held.isSome, g.held.isSome, g.wire ++ g.held.toList⟩

/-- How it answers. -/
def answers (g : Sample) : Access → Sample → Prop
  | .read offset v, g' =>
    (v, g') = if offset = fr then (if g.held.isSome then frTxff ||| frBusy else 0, g.drained) else (0, g)
  | .write offset v, g' =>
    g' = if offset = dr then { g with held := some (g.held.getD (v.setWidth 8)) }
      else if offset = ibrd then { g with settings := { g.settings with ibrd := v } }
      else if offset = fbrd then { g with settings := { g.settings with fbrd := v } }
      else if offset = lcrH then { g with settings := { g.settings with lcrH := v } }
      else if offset = cr then { g with settings := { g.settings with cr := v } }
      else if offset = imsc then { g with settings := { g.settings with imsc := v } }
      else g
  | .writeByte _ _, g' => g' = g

theorem read_flags {g g' : Sample} {v : BitVec 32} (h : g.answers (.read fr v) g') :
    v = (if g.held.isSome then frTxff ||| frBusy else 0) ∧ g' = g.drained := Prod.mk.inj h

theorem conforms : Conforms answers ⟨0⟩ shown where
  shows g v g' h := by
    obtain ⟨-, rfl⟩ := read_flags h
    refine ⟨⟨?_, (fun hf => nomatch hf), (fun hf => nomatch hf)⟩, rfl, fun _ => rfl, fun _ => rfl⟩
    simp [shown, drained]
  takes g v g' h hfull _ := by
    obtain rfl : g' = { g with held := some (g.held.getD (v.setWidth 8)) } := h
    obtain ⟨settings, held, wire⟩ := g
    cases held with
    | none => exact ⟨rfl, by simp [shown]⟩
    | some b => exact nomatch hfull
  switches g v g' h := by
    obtain rfl : g' = { g with settings := { g.settings with cr := v } } := h
    exact ⟨⟨rfl, fun hf => hf, fun hf => hf⟩, rfl⟩
  divides g v g' h _ _ := by
    obtain rfl : g' = { g with settings := { g.settings with ibrd := v } } := h
    exact ⟨⟨rfl, fun hf => hf, fun hf => hf⟩, rfl⟩
  dividesFurther g v g' h _ _ := by
    obtain rfl : g' = { g with settings := { g.settings with fbrd := v } } := h
    exact ⟨⟨rfl, fun hf => hf, fun hf => hf⟩, rfl⟩
  frames g v g' h _ _ := by
    obtain rfl : g' = { g with settings := { g.settings with lcrH := v } } := h
    exact ⟨⟨rfl, fun hf => hf, fun hf => hf⟩, rfl⟩
  masks g v g' h := by
    obtain rfl : g' = { g with settings := { g.settings with imsc := v } } := h
    exact ⟨⟨rfl, fun hf => hf, fun hf => hf⟩, rfl⟩
  clears g v g' h := by
    obtain rfl : g' = g := h
    exact ⟨⟨rfl, fun hf => hf, fun hf => hf⟩, rfl⟩

theorem drains {g g' : Sample} {v m : BitVec 32} (h : g.answers (.read fr v) g') (hv : v &&& m ≠ 0) :
    g'.held.toList.length < g.held.toList.length := by
  obtain ⟨rfl, rfl⟩ := read_flags h
  obtain ⟨settings, held, wire⟩ := g
  cases held with
  | none => exact absurd (BitVec.zero_and (x := m)) hv
  | some b => exact Nat.one_pos

theorem prompt : Prompt answers ⟨0⟩ shown (fun g => g.held.toList.length) 1 where
  reads g offset := ⟨_, _, rfl⟩
  writes g offset v := ⟨_, rfl⟩
  left_le g := by
    obtain ⟨settings, held, wire⟩ := g
    cases held <;> simp
  drains g v g' h _ hv := drains h hv
  rests g v g' h _ hv := drains h hv

end Sample

/-- A line is printed, the console is found where it was, and then there is more to say. -/
theorem console_says_sample : ∃ (l : List Access) (g : Sample),
    Path Sample.answers ⟨console, some 62, []⟩ l g ∧
    (session ⟨0⟩ [.print [104, 105, 10], .adopt, .emergency [33]]).run l = some (.done ()) ∧
    ∃ t, g.shown.out = 62 :: t ∧ plain t = [104, 105, 10, 33] := by
  obtain ⟨-, -, hgoes⟩ := console_says Sample.conforms [.print [104, 105, 10], .adopt, .emergency [33]]
    (.nil ⟨console, some 62, []⟩) (Driver.run_nil _)
  obtain ⟨-, l, a, g, hpath, hrun⟩ := hgoes _ 1 Sample.prompt
  obtain ⟨-, hdone, -⟩ := console_says Sample.conforms _ hpath hrun
  obtain ⟨-, t, hout, ht⟩ := hdone a rfl
  exact ⟨l, g, hpath, hrun, t, hout, ht⟩

end Uart

end TheRack
