import Kernel64.Console.Vga
import Kernel64.Format.Bounded
import Kernel64.Lists.Refine

/-!
# Printing (`console.c`, `serial.c`, `stdio.c`)

The output of `vprintf` goes to every console on the list `consoles`, in pieces as `vsinkprintf` makes
them. Each console shows the whole text in its order, wherever it was cut, and `vprintf` counts what
`vsnprintf` would (`vprintf_prints`); after the boot, the two consoles show all that was printed since
(`printCalls_shown`).
-/

namespace Kernel64

namespace Console

open Format Kernel64.Lists

/-! ### The code -/

/-- The serial port: the bytes that were sent, and how often `REG_LSR` was read. -/
structure Serial where
  sent : List UInt8
  polls : ℕ

/-- The addresses of the list head `consoles`, and of the `link` of each console. -/
inductive Link
  | consoles
  | serialConsole
  | vgaConsole
  deriving DecidableEq, Repr

/-- The consoles. -/
structure Output where
  links : Links Link
  serial : Serial
  vga : Vga

/-- Code that prints on the consoles. -/
abbrev OutputM (α : Type) : Type := Prog Output α

/-- The loop of `serial_putchar` over the reads of `REG_LSR`; `ready i` is `LSR_TX_READY` in read number
`i`. -/
def waitReady (ready : ℕ → Bool) : ℕ → Prog Serial Unit
  | 0 => throw .fuel
  | fuel + 1 => do
    let s ← get
    set { s with polls := s.polls + 1 }
    if ready s.polls then return else waitReady ready fuel

/-- `serial_putchar` -/
def serialPutchar (ready : ℕ → Bool) (fuel : ℕ) (c : UInt8) : Prog Serial Unit := do
  waitReady ready fuel
  modify fun s => { s with sent := s.sent ++ [c] }

/-- `serial_write` -/
def serialWrite (ready : ℕ → Bool) (fuel : ℕ) : List UInt8 → Prog Serial Unit
  | [] => return
  | c :: buf => do
    serialPutchar ready fuel c
    serialWrite ready fuel buf

/-- Code of the serial port. -/
def onSerial (m : Prog Serial Unit) : OutputM Unit := fun s =>
  match m s.serial with
  | .ok (_, serial) => .ok ((), { s with serial := serial })
  | .error e => .error e

/-- Code of the screen. -/
def onVga (m : VgaM Unit) : OutputM Unit := fun s =>
  match m s.vga with
  | .ok (_, vga) => .ok ((), { s with vga := vga })
  | .error e => .error e

/-- `register_console` -/
def registerConsole (console : Link) : OutputM Unit :=
  modify fun s => { s with links := listAddTail s.links console .consoles }

variable (ready : ℕ → Bool) (fuel : ℕ)

/-- `console->write`, of the console with the link `pos`. -/
def writeTo (str : List UInt8) : Link → OutputM Unit
  | .consoles => throw .bounds
  | .serialConsole => onSerial (serialWrite ready fuel str)
  | .vgaConsole => onVga (vgaWrite str)

/-- The loop of `console_write`. -/
def consoleLoop (str : List UInt8) : ℕ → Link → OutputM Unit
  | 0, _ => throw .fuel
  | n + 1, pos => do
    if pos = .consoles then return
    writeTo ready fuel str pos
    consoleLoop str n ((← get).links pos).next

/-- `console_write` -/
def consoleWrite (str : List UInt8) : OutputM Unit := do
  consoleLoop ready fuel str fuel ((← get).links .consoles).next

/-- `vsinkprintf_console_write`, for the writes of a run in order. -/
def consoleWrites : List (List UInt8) → BitVec 32 → OutputM (BitVec 32)
  | [], count => return count
  | data :: out, count => do
    consoleWrite ready fuel data
    consoleWrites out (count + BitVec.ofNat 32 data.length)

/-- `vprintf`, and `printf`, which passes its arguments on. -/
def vprintf (env : Env) (fmt : List UInt8) : OutputM ℤ :=
  match vsinkprintf env fuel fmt ⟨[], 0⟩ with
  | .error e => throw e
  | .ok (_, printed) => do return (← consoleWrites ready fuel printed.out 0#32).toInt

/-- `putchar` -/
def putchar (c : UInt8) : OutputM Unit := consoleWrite ready fuel [c]

/-- `puts` -/
def puts (str : List UInt8) : OutputM Unit := do
  consoleWrite ready fuel str
  putchar ready fuel (ch '\n')

/-- A call that prints. -/
inductive PrintCall
  | vprintf (env : Env) (fmt : List UInt8)
  | puts (str : List UInt8)
  | putchar (c : UInt8)

/-- Some calls that print, one after the other. -/
def printCalls : List PrintCall → OutputM Unit
  | [] => return
  | .vprintf env fmt :: calls => do
    let _ ← vprintf ready fuel env fmt
    printCalls calls
  | .puts str :: calls => do
    puts ready fuel str
    printCalls calls
  | .putchar c :: calls => do
    putchar ready fuel c
    printCalls calls

/-- `setup_serial`, once it has programmed the port, and `setup_vga`. -/
def setupConsoles : OutputM Unit := do
  registerConsole .serialConsole
  onVga clrscr
  registerConsole .vgaConsole

/-- The consoles at the boot, with any contents of the screen: `LIST_HEAD(consoles)`. -/
def Output.initial (mem : ℕ → UInt8) : Output where
  links _ := ⟨.consoles, .consoles⟩
  serial := ⟨[], 0⟩
  vga := Vga.initial mem

/-! ### One console -/

section

variable {ready fuel} {s : Output} {l : List Link} {shown : Link → List UInt8} {str : List UInt8}

theorem ensures_onSerial {m : Prog Serial Unit} {Q : Unit → Output → Prop}
    (h : Ensures m s.serial fun _ serial => Q () { s with serial := serial }) : Ensures (onSerial m) s Q := by
  obtain ⟨_, serial, hrun, hQ⟩ := h
  exact ⟨(), { s with serial := serial }, by rw [onSerial, hrun], hQ⟩

theorem ensures_onVga {m : VgaM Unit} {Q : Unit → Output → Prop}
    (h : Ensures m s.vga fun _ vga => Q () { s with vga := vga }) : Ensures (onVga m) s Q := by
  obtain ⟨_, vga, hrun, hQ⟩ := h
  exact ⟨(), { s with vga := vga }, by rw [onVga, hrun], hQ⟩

/-- The serial port is ready, sooner or later. -/
def Responsive (ready : ℕ → Bool) (fuel : ℕ) : Prop := ∀ i, ∃ j < fuel, ready (i + j) = true

theorem ensures_waitReady {n : ℕ} {t : Serial} (h : ∃ j < n, ready (t.polls + j) = true) :
    Ensures (waitReady ready n) t fun _ t' => t'.sent = t.sent := by
  induction n generalizing t with
  | zero =>
    obtain ⟨j, hj, -⟩ := h
    exact absurd hj (Nat.not_lt_zero j)
  | succ n ih =>
    obtain ⟨j, hj, hready⟩ := h
    rw [waitReady, ensures_bind, ensures_get, ensures_bind, ensures_set]
    by_cases hnow : ready t.polls = true
    · rw [if_pos hnow, ensures_pure]
    · rw [if_neg hnow]
      cases j with
      | zero => exact absurd hready hnow
      | succ j =>
        refine ih ⟨j, Nat.lt_of_succ_lt_succ hj, ?_⟩
        rw [← hready, Nat.add_assoc, Nat.add_comm 1 j]

/-- The serial port sends a text. -/
theorem ensures_serialWrite (hready : Responsive ready fuel) {t : Serial} (str : List UInt8) :
    Ensures (serialWrite ready fuel str) t fun _ t' => t'.sent = t.sent ++ str := by
  induction str generalizing t with
  | nil => exact ensures_pure.2 (List.append_nil _).symm
  | cons c str ih =>
    rw [serialWrite, ensures_bind, serialPutchar, ensures_bind]
    refine (ensures_waitReady (hready t.polls)).mono fun _ t₁ h₁ => ?_
    rw [ensures_modify]
    refine ih.mono fun _ t' h' => ?_
    rw [h', h₁, List.append_assoc, List.singleton_append]

/-! ### All consoles -/

/-- The consoles on the list are those of `l`, and each console shows the text that went to it. -/
structure Connected (l : List Link) (shown : Link → List UInt8) (s : Output) : Prop where
  list : (ring s.links).Circle .consoles l
  serial : s.serial.sent = shown .serialConsole
  vga : Displays (typed (Sheet.empty (ch ' ')) (shown .vgaConsole)) s.vga

/-- The texts of the consoles after one more went to those of a list. -/
def sentTo (shown : Link → List UInt8) (l : List Link) (str : List UInt8) (c : Link) : List UInt8 :=
  if c ∈ l then shown c ++ str else shown c

theorem sentTo_nil (shown : Link → List UInt8) (l : List Link) : sentTo shown l [] = shown := by
  funext c
  rw [sentTo, List.append_nil, ite_self]

theorem sentTo_append (shown : Link → List UInt8) (l : List Link) (a b : List UInt8) :
    sentTo (sentTo shown l a) l b = sentTo shown l (a ++ b) := by
  funext c
  simp only [sentTo]
  split_ifs
  · exact List.append_assoc ..
  · rfl

theorem sentTo_cons {x : Link} (hx : x ∉ l) (shown : Link → List UInt8) (str : List UInt8) :
    sentTo (Function.update shown x (shown x ++ str)) l str = sentTo shown (x :: l) str := by
  funext c
  rw [sentTo, sentTo]
  by_cases hc : c = x
  · rw [hc, if_neg hx, if_pos List.mem_cons_self, Function.update_self]
  · rw [Function.update_of_ne hc]
    simp only [List.mem_cons, hc, false_or]

/-- **One console** gets a text. -/
theorem Connected.ensures_writeTo (h : Connected l shown s) (hready : Responsive ready fuel) {pos : Link}
    (hpos : pos ≠ .consoles) (str : List UInt8) :
    Ensures (writeTo ready fuel str pos) s fun _ s' =>
      s'.links = s.links ∧ Connected l (Function.update shown pos (shown pos ++ str)) s' := by
  cases pos with
  | consoles => exact absurd rfl hpos
  | serialConsole =>
    refine ensures_onSerial ((ensures_serialWrite hready str).mono fun _ t ht => ⟨rfl, h.list, ?_, h.vga⟩)
    rw [Function.update_self, ← h.serial]
    exact ht
  | vgaConsole =>
    refine ensures_onVga ((h.vga.ensures_vgaWrite str).mono fun _ v hv => ⟨rfl, h.list, h.serial, ?_⟩)
    rw [Function.update_self, typed_append]
    exact hv

/-- **The loop** over the consoles that are left. -/
theorem Connected.ensures_consoleLoop {rest : List Link} {a : Link} {n : ℕ} (h : Connected l shown s)
    (hready : Responsive ready fuel) (hpath : (ring s.links).Path a rest .consoles) (hnd : rest.Nodup)
    (hrest : Link.consoles ∉ rest) (hn : rest.length < n) :
    Ensures (consoleLoop ready fuel str n (s.links a).next) s fun _ s' => Connected l (sentTo shown rest str) s' := by
  induction rest generalizing s shown a n with
  | nil =>
    obtain ⟨n, rfl⟩ : ∃ k, n = k + 1 := ⟨n - 1, by rw [List.length_nil] at hn; omega⟩
    have hend : (s.links a).next = .consoles := hpath.1
    rw [consoleLoop, hend, if_pos rfl, ensures_pure]
    exact ⟨h.list, h.serial, h.vga⟩
  | cons x rest ih =>
    rw [List.length_cons] at hn
    obtain ⟨n, rfl⟩ : ∃ k, n = k + 1 := ⟨n - 1, by omega⟩
    obtain ⟨⟨hnext, -⟩, hpath⟩ := hpath
    obtain ⟨hx, hnd⟩ := List.nodup_cons.1 hnd
    have hne : x ≠ .consoles := fun hc => hrest (hc ▸ List.mem_cons_self)
    have hnext' : (s.links a).next = x := hnext
    rw [consoleLoop, hnext', if_neg hne, ensures_bind]
    refine (h.ensures_writeTo hready hne str).mono ?_
    rintro - s₁ ⟨hlinks, h₁⟩
    rw [ensures_bind, ensures_get, ← sentTo_cons hx]
    exact ih h₁ (by rw [hlinks]; exact hpath) hnd (fun hc => hrest (List.mem_cons_of_mem _ hc)) (by omega)

/-- **`console_write`** gives the text to each console on the list. -/
theorem Connected.ensures_consoleWrite (h : Connected l shown s) (hready : Responsive ready fuel)
    (hfuel : l.length < fuel) (str : List UInt8) :
    Ensures (consoleWrite ready fuel str) s fun _ s' => Connected l (sentTo shown l str) s' := by
  obtain ⟨hhead, hnd⟩ := List.nodup_cons.1 h.list.nodup
  rw [consoleWrite, ensures_bind, ensures_get]
  exact h.ensures_consoleLoop hready h.list.path hnd hhead hfuel

/-- The pieces of a text make the text. -/
theorem Connected.ensures_consoleWrites (h : Connected l shown s) (hready : Responsive ready fuel)
    (hfuel : l.length < fuel) (out : List (List UInt8)) (n : ℕ) :
    Ensures (consoleWrites ready fuel out (BitVec.ofNat 32 n)) s fun r s' =>
      r = BitVec.ofNat 32 (n + out.flatten.length) ∧ Connected l (sentTo shown l out.flatten) s' := by
  induction out generalizing s shown n with
  | nil =>
    rw [consoleWrites, ensures_pure, List.flatten_nil, sentTo_nil]
    exact ⟨rfl, h⟩
  | cons data out ih =>
    rw [consoleWrites, ensures_bind]
    refine (h.ensures_consoleWrite hready hfuel data).mono fun _ s₁ h₁ => ?_
    rw [← BitVec.ofNat_add, List.flatten_cons, List.length_append, ← Nat.add_assoc, ← sentTo_append]
    exact ih h₁ (n + data.length)

theorem Connected.ensures_putchar (h : Connected l shown s) (hready : Responsive ready fuel)
    (hfuel : l.length < fuel) (c : UInt8) :
    Ensures (putchar ready fuel c) s fun _ s' => Connected l (sentTo shown l [c]) s' :=
  h.ensures_consoleWrite hready hfuel [c]

theorem Connected.ensures_puts (h : Connected l shown s) (hready : Responsive ready fuel)
    (hfuel : l.length < fuel) (str : List UInt8) :
    Ensures (puts ready fuel str) s fun _ s' => Connected l (sentTo shown l (str ++ [ch '\n'])) s' := by
  rw [puts, ensures_bind]
  refine (h.ensures_consoleWrite hready hfuel str).mono fun _ s₁ h₁ => ?_
  rw [← sentTo_append]
  exact h₁.ensures_putchar hready hfuel (ch '\n')

theorem Connected.ensures_vprintf {env : Env} {fmt : List UInt8} {printed : PrintState} (h : Connected l shown s)
    (hready : Responsive ready fuel) (hfuel : l.length < fuel)
    (hrun : vsinkprintf env fuel fmt ⟨[], 0⟩ = .ok ((), printed)) :
    Ensures (vprintf ready fuel env fmt) s fun r s' =>
      Connected l (sentTo shown l printed.out.flatten) s' ∧ r = toInt32 printed.out.flatten.length := by
  rw [vprintf, hrun]
  simp only [ensures_bind, ensures_pure]
  refine (h.ensures_consoleWrites hready hfuel printed.out 0).mono ?_
  rintro r s' ⟨rfl, hs'⟩
  rw [Nat.zero_add]
  exact ⟨hs', rfl⟩

/-! ### From the boot on -/

/-- A list without consoles. -/
theorem circle_initial (mem : ℕ → UInt8) : (ring (Output.initial mem).links).Circle .consoles [] :=
  ⟨⟨rfl, rfl⟩, List.nodup_singleton _⟩

/-- **The setup** connects the serial port and, behind it, a screen that is empty. -/
theorem ensures_setupConsoles (mem : ℕ → UInt8) :
    Ensures setupConsoles (Output.initial mem) fun _ s =>
      Connected [.serialConsole, .vgaConsole] (fun _ => []) s := by
  have hfirst : Link.serialConsole ≠ ((Output.initial mem).links .consoles).prev :=
    show Link.serialConsole ≠ .consoles by decide
  have hone := (circle_initial mem).addTail (x := .serialConsole) (by decide)
  rw [← ring_listAddTail hfirst] at hone
  have hsecond : Link.vgaConsole ≠
      (listAddTail (Output.initial mem).links .serialConsole .consoles .consoles).prev :=
    show Link.vgaConsole ≠ .serialConsole by decide
  have htwo := hone.addTail (x := .vgaConsole) (by decide)
  rw [← ring_listAddTail hsecond] at htwo
  rw [setupConsoles, ensures_bind, registerConsole, ensures_modify, ensures_bind]
  refine ensures_onVga ((ensures_clrscr mem).mono fun _ v hv => ?_)
  rw [registerConsole, ensures_modify]
  exact ⟨htwo, rfl, hv⟩

/-- The text that a call prints, when the format is run through. -/
def PrintCall.text (fuel : ℕ) : PrintCall → Option (List UInt8)
  | .vprintf env fmt =>
    match vsinkprintf env fuel fmt ⟨[], 0⟩ with
    | .error _ => none
    | .ok (_, printed) => some printed.out.flatten
  | .puts str => some (str ++ [ch '\n'])
  | .putchar c => some [c]

/-- **Some calls**, one after the other, show their texts one behind the other. -/
theorem Connected.ensures_printCalls (h : Connected l shown s) (hready : Responsive ready fuel)
    (hfuel : l.length < fuel) {calls : List PrintCall} {texts : List (List UInt8)}
    (htexts : calls.map (PrintCall.text fuel) = texts.map some) :
    Ensures (printCalls ready fuel calls) s fun _ s' => Connected l (sentTo shown l texts.flatten) s' := by
  induction calls generalizing s shown texts with
  | nil =>
    obtain rfl : texts = [] := List.map_eq_nil_iff.1 htexts.symm
    rw [printCalls, ensures_pure, List.flatten_nil, sentTo_nil]
    exact h
  | cons call calls ih =>
    obtain ⟨text, texts, rfl⟩ : ∃ t ts, texts = t :: ts := by
      cases texts with
      | nil => cases htexts
      | cons t ts => exact ⟨t, ts, rfl⟩
    rw [List.map_cons, List.map_cons, List.cons.injEq] at htexts
    obtain ⟨hcall, htexts⟩ := htexts
    rw [List.flatten_cons, ← sentTo_append]
    cases call with
    | vprintf env fmt =>
      rw [PrintCall.text] at hcall
      cases hrun : vsinkprintf env fuel fmt ⟨[], 0⟩ with
      | error e =>
        rw [hrun] at hcall
        cases hcall
      | ok r =>
        obtain ⟨u, printed⟩ := r
        rw [hrun] at hcall
        obtain rfl : printed.out.flatten = text := Option.some.inj hcall
        rw [printCalls, ensures_bind]
        refine (h.ensures_vprintf hready hfuel hrun).mono fun _ s₁ h₁ => ?_
        exact ih h₁.1 htexts
    | puts str =>
      obtain rfl : str ++ [ch '\n'] = text := Option.some.inj hcall
      rw [printCalls, ensures_bind]
      exact (h.ensures_puts hready hfuel str).mono fun _ s₁ h₁ => ih h₁ htexts
    | putchar c =>
      obtain rfl : [c] = text := Option.some.inj hcall
      rw [printCalls, ensures_bind]
      exact (h.ensures_putchar hready hfuel c).mono fun _ s₁ h₁ => ih h₁ htexts

/-- **`vprintf` and `vsnprintf`.** Whenever the format is run through, every console on the list shows
the whole text behind what it has shown before, in whatever pieces it was written, and the result is the
length of the text as an `int`. For a text of less than 2^31 bytes it is the result of `vsnprintf` too,
which leaves the same text in a buffer of 1 to 2^31 - 1 bytes. -/
theorem vprintf_prints {env : Env} {fmt : List UInt8} {printed : PrintState} (h : Connected l shown s)
    (hready : Responsive ready fuel) (hfuel : l.length < fuel)
    (hrun : vsinkprintf env fuel fmt ⟨[], 0⟩ = .ok ((), printed)) :
    Ensures (vprintf ready fuel env fmt) s fun r s' =>
      Connected l (sentTo shown l printed.out.flatten) s' ∧ r = toInt32 printed.out.flatten.length ∧
      ∀ mem n, 1 ≤ n → n < 2 ^ 31 → printed.out.flatten.length < 2 ^ 31 →
        ∃ b, vsnprintf env fuel mem n fmt = .ok (r, b) ∧ Terminated mem n printed.out.flatten b := by
  refine (h.ensures_vprintf hready hfuel hrun).mono ?_
  rintro r s' ⟨hs', rfl⟩
  refine ⟨hs', rfl, fun mem n hone hn hlen => ?_⟩
  obtain ⟨r, b, hb, rfl, hterminated⟩ := (@ensures_vsnprintfFrom_iff mem n hn printed.out hlen).2 hone
  refine ⟨b, ?_, hterminated⟩
  rw [vsnprintf, hrun, toInt32, toInt_count hlen]
  exact hb

/-- A port that is always ready. -/
theorem responsive_true : Responsive (fun _ => true) 3 := fun _ => ⟨0, by decide, rfl⟩

/-- The format `ab`, on the consoles that the boot connects. -/
theorem vprintf_prints_two : ∃ s, Connected [.serialConsole, .vgaConsole] (fun _ => []) s ∧
    Ensures (vprintf (fun _ => true) 3 noArgs [ch 'a', ch 'b']) s fun r s' =>
      r = 2 ∧ s'.serial.sent = [ch 'a', ch 'b'] := by
  obtain ⟨_, s, -, hs⟩ := ensures_setupConsoles fun _ => 0
  have hrun : vsinkprintf noArgs 3 [ch 'a', ch 'b'] ⟨[], 0⟩ = .ok ((), ⟨[[ch 'a', ch 'b']], 0⟩) := rfl
  refine ⟨s, hs, (vprintf_prints hs responsive_true (by decide) hrun).mono ?_⟩
  rintro r s' ⟨hs', rfl, -⟩
  exact ⟨by decide, hs'.serial⟩

/-- **From the boot on**, both consoles show all that was printed, whatever the screen held before. -/
theorem printCalls_shown (mem : ℕ → UInt8) (hready : Responsive ready fuel) (hfuel : 2 < fuel)
    {calls : List PrintCall} {texts : List (List UInt8)}
    (htexts : calls.map (PrintCall.text fuel) = texts.map some) :
    Ensures (do
      setupConsoles
      printCalls ready fuel calls) (Output.initial mem) fun _ s =>
        s.serial.sent = texts.flatten ∧ Displays (typed (Sheet.empty (ch ' ')) texts.flatten) s.vga := by
  rw [ensures_bind]
  refine (ensures_setupConsoles mem).mono fun _ s₁ h₁ => ?_
  refine (h₁.ensures_printCalls hready hfuel htexts).mono fun _ s h => ?_
  exact ⟨h.serial, h.vga⟩

/-- A line and a character. -/
theorem printCalls_shown_two :
    Ensures (do
      setupConsoles
      printCalls (fun _ => true) 3 [.puts [ch 'a'], .putchar (ch 'b')]) (Output.initial fun _ => 0) fun _ s =>
        s.serial.sent = [ch 'a', ch '\n', ch 'b'] ∧
        Displays (typed (Sheet.empty (ch ' ')) [ch 'a', ch '\n', ch 'b']) s.vga :=
  @printCalls_shown _ 3 (fun _ => 0) responsive_true (by decide) _ [[ch 'a', ch '\n'], [ch 'b']] rfl

end

end Console

end Kernel64
