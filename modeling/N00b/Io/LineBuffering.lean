import Mathlib.Data.List.Induction
import N00b.Lib.Lines

/-!
# Line buffering

`n00b_apply_line_buffering` cuts the messages that go through a filter into lines. What comes
after the last newline is kept in the filter's state until a later message completes it.

## Representation

* A buffer is the list of its bytes. The pointers `start`, `p` and `end` of the scan are given by
  the bytes between them: `part` from `start` to `p`, and the rest from `p` to `end`.
* The state is `none` for the null pointer, which `n00b_buffer_add` takes for an empty buffer.
-/

namespace N00b.Io

open N00b.Lib

abbrev Buf := List UInt8

def newline : UInt8 := 10

/-- `n00b_buffer_add`. -/
def bufferAdd (b₁ : Option Buf) (b₂ : Buf) : Buf := b₁.getD [] ++ b₂

/-- What a filter is given: a buffer, something that can be coerced to one, or something that is
printed first, if that works. -/
inductive Msg where
  | buffer (bytes : Buf)
  | other (printed : Option Buf)

/-- The loop of `n00b_apply_line_buffering`. It returns the lines, what is left from `start` to
`end`, and what is left of `remainder`. -/
def scan : (part rest : Buf) → (remainder : Option Buf) → List Buf → List Buf × Buf × Option Buf
  | part, [], remainder, result => (result, part, remainder)
  | part, b :: rest, remainder, result =>
    if b = newline then
      -- The input itself is used when it is one line. `remainder` goes in front of the first line.
      scan [] rest none (result ++ [bufferAdd remainder (part ++ [b])])
    else scan (part ++ [b]) rest remainder result

/-- `n00b_apply_line_buffering` on a buffer. -/
def applyToBuffer (state : Option Buf) (input : Buf) : List Buf × Option Buf :=
  if input.length = 0 then ([], state)
  else
    let r := scan [] input state []
    let start := input.length - r.2.1.length
    if start ≠ input.length then
      if start = 0 then (r.1, some (bufferAdd r.2.2 input))
      else
        match r.2.2 with
        | some remainder => (r.1, some (bufferAdd (some remainder) r.2.1))
        | none => (r.1, some r.2.1)
    else (r.1, state)

/-- `n00b_apply_line_buffering`. -/
def applyLineBuffering (state : Option Buf) : Msg → List Buf × Option Buf
  | .buffer bytes => applyToBuffer state bytes
  | .other none => ([], state)
  | .other (some bytes) => applyToBuffer state bytes

/-! ## Runs -/

/-- What a run has returned so far, and the state of the filter. -/
structure Run where
  lines : List Buf := []
  state : Option Buf := none

def Run.pending (r : Run) : Buf := r.state.getD []

def Run.step (r : Run) (msg : Buf) : Run where
  lines := r.lines ++ (applyLineBuffering r.state (.buffer msg)).1
  state := (applyLineBuffering r.state (.buffer msg)).2

def run (msgs : List Buf) : Run := msgs.foldl Run.step {}

theorem run_append_singleton (msgs : List Buf) (msg : Buf) :
    run (msgs ++ [msg]) = (run msgs).step msg := by
  rw [run, List.foldl_append]
  rfl

/-- No byte is lost or repeated, and the lines are those of the bytes that came, however they were
cut into messages. -/
structure Kept (msgs : List Buf) : Prop where
  bytes : (run msgs).lines.flatten ++ (run msgs).pending = msgs.flatten
  endsIn : ∀ line ∈ (run msgs).lines, EndsIn newline line
  pending : newline ∉ (run msgs).pending
  lines : (run msgs).lines = (splitAfter newline msgs.flatten).1

/-- A message that ends in a newline finds pending bytes. They go into its first line, but stay in
the state as well. -/
def Stale (r : Run) (msg : Buf) : Prop := r.pending ≠ [] ∧ msg.getLast? = some newline

/-! ## One message -/

theorem scan_of_not_mem {rest : Buf} (h : newline ∉ rest) (part : Buf) (remainder : Option Buf)
    (result : List Buf) : scan part rest remainder result = (result, part ++ rest, remainder) := by
  induction rest generalizing part with
  | nil => rw [scan, List.append_nil]
  | cons b rest ih =>
    rw [List.mem_cons, not_or] at h
    rw [scan, if_neg (Ne.symm h.1), ih h.2, List.append_assoc]
    rfl

theorem scan_line {body : Buf} (h : newline ∉ body) (rest part : Buf) (remainder : Option Buf)
    (result : List Buf) :
    scan part (body ++ newline :: rest) remainder result =
      scan [] rest none (result ++ [bufferAdd remainder (part ++ body ++ [newline])]) := by
  induction body generalizing part with
  | nil => rw [List.nil_append, scan, if_pos rfl, List.append_nil]
  | cons b body ih =>
    rw [List.mem_cons, not_or] at h
    rw [List.cons_append, scan, if_neg (Ne.symm h.1), ih h.2, List.append_assoc, List.append_assoc,
      List.append_assoc]
    rfl

theorem scan_none (rest : Buf) (result : List Buf) :
    scan [] rest none result =
      (result ++ (splitAfter newline rest).1, (splitAfter newline rest).2, none) := by
  induction hn : rest.length using Nat.strongRecOn generalizing rest result with
  | _ n ih =>
    rcases split_first newline rest with h | ⟨body, rest', rfl, hbody⟩
    · rw [scan_of_not_mem h, splitAfter_of_not_mem newline h, List.append_nil]
      rfl
    · have hlt : rest'.length < n := by
        rw [← hn, List.length_append, List.length_cons]
        omega
      rw [scan_line hbody, ih rest'.length hlt rest' _ rfl, splitAfter_line newline hbody,
        List.append_assoc]
      rfl

theorem applyToBuffer_of_not_mem {input : Buf} (hne : input ≠ []) (h : newline ∉ input)
    (state : Option Buf) : applyToBuffer state input = ([], some (state.getD [] ++ input)) := by
  have hlen : input.length ≠ 0 := fun h0 => hne (List.eq_nil_of_length_eq_zero h0)
  rw [applyToBuffer, if_neg hlen, scan_of_not_mem h]
  simp only [List.nil_append, Nat.sub_self]
  rw [if_pos (Ne.symm hlen), if_pos trivial]
  rfl

theorem applyToBuffer_line {body : Buf} (h : newline ∉ body) (rest : Buf) (state : Option Buf) :
    applyToBuffer state (body ++ newline :: rest) =
      ((state.getD [] ++ body ++ [newline]) :: (splitAfter newline rest).1,
        if (splitAfter newline rest).2 = [] then state else some (splitAfter newline rest).2) := by
  have hle : (splitAfter newline rest).2.length ≤ rest.length := by
    have hcut := congrArg List.length (splitAfter_flatten newline rest)
    rw [List.length_append] at hcut
    omega
  have hlen : (body ++ newline :: rest).length = body.length + (rest.length + 1) := by
    rw [List.length_append, List.length_cons]
  rw [applyToBuffer, if_neg (by omega), scan_line h, scan_none]
  simp only [List.nil_append, List.singleton_append, hlen]
  have hstart : body.length + (rest.length + 1) - (splitAfter newline rest).2.length ≠ 0 := by omega
  have hline : bufferAdd state (body ++ [newline]) = state.getD [] ++ body ++ [newline] :=
    (List.append_assoc _ _ _).symm
  rw [hline]
  by_cases hopen : (splitAfter newline rest).2 = []
  · rw [if_pos hopen, if_neg]
    rw [hopen]
    exact fun hcontra => hcontra (Nat.sub_zero _)
  · have hpos : 0 < (splitAfter newline rest).2.length := List.length_pos_iff.mpr hopen
    rw [if_neg hopen, if_pos (by omega), if_neg hstart]

theorem applyToBuffer_stale {input : Buf} (hlast : input.getLast? = some newline)
    (state : Option Buf) :
    (applyToBuffer state input).1.flatten = state.getD [] ++ input ∧
      (applyToBuffer state input).2 = state := by
  have hmem : newline ∈ input := List.mem_of_getLast? hlast
  obtain hnot | ⟨body, rest, rfl, hbody⟩ := split_first newline input
  · exact absurd hmem hnot
  · have hopen : (splitAfter newline rest).2 = [] := by
      have hall := (open_eq_nil_iff newline (List.append_ne_nil_of_right_ne_nil _
        (List.cons_ne_nil _ _))).mpr hlast
      rwa [splitAfter_line newline hbody] at hall
    have hcut := splitAfter_flatten newline rest
    rw [hopen, List.append_nil] at hcut
    rw [applyToBuffer_line hbody, if_pos hopen]
    refine ⟨?_, rfl⟩
    rw [List.flatten_cons, hcut, List.append_assoc, List.append_assoc]
    rfl

/-! ## Runs in which nothing is stale -/

/-- The lines and the pending bytes are those of `bytes`. -/
structure Run.Cuts (r : Run) (bytes : Buf) : Prop where
  lines : r.lines = (splitAfter newline bytes).1
  pending : r.pending = (splitAfter newline bytes).2

theorem Run.Cuts.step {r : Run} {bytes msg : Buf} (h : r.Cuts bytes) (hne : msg ≠ [])
    (hstale : ¬ Stale r msg) : (r.step msg).Cuts (bytes ++ msg) := by
  have hopen : newline ∉ r.state.getD [] := by
    have hpending := not_mem_splitAfter newline bytes
    rwa [← h.pending] at hpending
  have hsplit := splitAfter_append newline bytes msg
  rw [← h.lines, ← h.pending] at hsplit
  rcases split_first newline msg with hnot | ⟨body, rest, rfl, hbody⟩
  · have hall : newline ∉ r.pending ++ msg := by
      rw [List.mem_append, not_or]
      exact ⟨hopen, hnot⟩
    rw [splitAfter_of_not_mem newline hall] at hsplit
    have happly := applyToBuffer_of_not_mem hne hnot r.state
    constructor
    · rw [hsplit]
      exact congrArg (r.lines ++ ·.1) happly
    · rw [hsplit]
      exact congrArg (·.2.getD []) happly
  · have hline : newline ∉ r.pending ++ body := by
      rw [List.mem_append, not_or]
      exact ⟨hopen, hbody⟩
    rw [← List.append_assoc r.pending, splitAfter_line newline hline] at hsplit
    have happly := applyToBuffer_line hbody rest r.state
    constructor
    · rw [hsplit]
      exact congrArg (r.lines ++ ·.1) happly
    · rw [hsplit]
      refine (congrArg (·.2.getD []) happly).trans ?_
      show (if _ then _ else _ : Option Buf).getD [] = (splitAfter newline rest).2
      split
      next hend =>
        -- The message ends in a newline, so nothing was pending.
        rw [hend]
        by_contra hpending
        refine hstale ⟨hpending, (open_eq_nil_iff newline hne).mp ?_⟩
        rw [splitAfter_line newline hbody]
        exact hend
      · rfl

theorem Run.Cuts.kept {msgs : List Buf} (h : (run msgs).Cuts msgs.flatten) : Kept msgs where
  bytes := by rw [h.lines, h.pending, splitAfter_flatten]
  endsIn := by
    rw [h.lines]
    exact splitAfter_endsIn newline _
  pending := by
    rw [h.pending]
    exact not_mem_splitAfter newline _
  lines := h.lines

theorem run_cuts {msgs : List Buf} (hne : ∀ msg ∈ msgs, msg ≠ [])
    (hstale : ∀ before msg after, msgs = before ++ msg :: after → ¬ Stale (run before) msg) :
    (run msgs).Cuts msgs.flatten := by
  induction msgs using List.reverseRecOn with
  | nil => exact ⟨rfl, rfl⟩
  | append_singleton msgs msg ih =>
    have hbefore := ih (fun m hm => hne m (List.mem_append_left _ hm))
      fun before m after heq => hstale before m (after ++ [msg]) (by
        rw [heq, List.append_assoc]
        rfl)
    rw [run_append_singleton, List.flatten_append, List.flatten_singleton]
    exact hbefore.step (hne msg (List.mem_append_right _ (List.mem_singleton_self msg)))
      (hstale msgs msg [] rfl)

theorem not_kept_of_stale {msgs : List Buf} {msg : Buf} (hkept : Kept msgs)
    (hstale : Stale (run msgs) msg) : ¬ Kept (msgs ++ [msg]) := by
  intro hnext
  have hbytes := hnext.bytes
  obtain ⟨hlines, hstate⟩ := applyToBuffer_stale hstale.2 (run msgs).state
  have hall : (run (msgs ++ [msg])).lines.flatten ++ (run (msgs ++ [msg])).pending =
      (run msgs).lines.flatten ++ ((run msgs).pending ++ msg) ++ (run msgs).pending := by
    rw [run_append_singleton]
    show ((run msgs).lines ++ (applyToBuffer (run msgs).state msg).1).flatten ++
      (applyToBuffer (run msgs).state msg).2.getD [] = _
    rw [List.flatten_append, hlines, hstate]
    rfl
  rw [hall, ← List.append_assoc, hkept.bytes, List.flatten_append, List.flatten_singleton] at hbytes
  exact hstale.1 (List.append_right_eq_self.mp hbytes)

/-- **Line buffering keeps the bytes exactly as long as no message that ends in a newline finds
pending bytes.** -/
theorem run_kept_iff (msgs : List Buf) (hne : ∀ msg ∈ msgs, msg ≠ []) :
    (∀ before after, msgs = before ++ after → Kept before) ↔
      ∀ before msg after, msgs = before ++ msg :: after → ¬ Stale (run before) msg := by
  constructor
  · intro hkept before msg after heq hstale
    refine not_kept_of_stale (hkept before (msg :: after) heq) hstale
      (hkept (before ++ [msg]) after ?_)
    rw [heq, List.append_assoc]
    rfl
  · rintro hstale before after rfl
    refine (run_cuts (fun m hm => hne m (List.mem_append_left _ hm)) ?_).kept
    intro first msg rest heq
    refine hstale first msg (rest ++ after) ?_
    rw [heq, List.append_assoc]
    rfl

/-- The first message has no newline, and the second one goes on behind its own. -/
theorem run_kept_iff_twice :
    (∀ before after, [[97], [98, 10, 99]] = before ++ after → Kept before) ↔
      ∀ before msg after, [[97], [98, 10, 99]] = before ++ msg :: after →
        ¬ Stale (run before) msg :=
  run_kept_iff [[97], [98, 10, 99]] (by decide)

/-- The bytes `a`, and then `b` and a newline: the line is returned, and `a` is still pending. -/
theorem not_all_kept : ¬ ∀ msgs : List Buf, (∀ msg ∈ msgs, msg ≠ []) → Kept msgs := by
  intro hall
  have hbytes := (hall [[97], [98, 10]] (by decide)).bytes
  exact absurd hbytes (by decide)

end N00b.Io
