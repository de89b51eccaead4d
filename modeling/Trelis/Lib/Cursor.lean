import Trelis.Lib.Outcome
import Trelis.Lib.Slices

/-!
# A buffer with a position

Encoders and decoders walk over a buffer.  `Cursor` is the buffer with the
position, which is never behind its end; `put` writes at the position and
`advance` steps over what is there.  Both are guarded by what remains.

`Writes c c' data` is a whole run of writes: between the two positions stands
`data`, and everything else is as before.  Runs compose (`Writes.append`), and what
a run wrote stands at its start (`Writes.drop_pos`), which is all that a reader has
to know.
-/

namespace Trelis

@[ext] structure Cursor where
  buf : Bytes
  pos : Nat
  pos_le : pos ≤ buf.length

namespace Cursor

/-- The number of bytes behind the position. -/
def remaining (c : Cursor) : Nat := c.buf.length - c.pos

/-- The `n` bytes at the position. -/
def next (c : Cursor) (n : Nat) : Bytes := sliceAt c.buf c.pos n

/-- The cursor behind the `n` bytes at the position. -/
def advance (c : Cursor) (n : Nat) (h : n ≤ c.remaining) : Cursor :=
  ⟨c.buf, c.pos + n, by
    have hpos := c.pos_le
    unfold remaining at h
    omega⟩

/-- The cursor with `data` written at the position. -/
def put (c : Cursor) (data : Bytes) (_h : data.length ≤ c.remaining) : Cursor :=
  ⟨c.buf.take c.pos ++ data ++ c.buf.drop (c.pos + data.length), c.pos + data.length, by
    have hpos := c.pos_le
    simp only [List.length_append, List.length_take]
    omega⟩

theorem length_next {c : Cursor} {n : Nat} (h : n ≤ c.remaining) : (c.next n).length = n := by
  apply length_sliceAt
  have hpos := c.pos_le
  unfold remaining at h
  omega

theorem remaining_advance {c : Cursor} {n : Nat} (h : n ≤ c.remaining) :
    (c.advance n h).remaining = c.remaining - n := by
  show c.buf.length - (c.pos + n) = c.buf.length - c.pos - n
  omega

@[simp] theorem length_put {c : Cursor} {data : Bytes} (h : data.length ≤ c.remaining) :
    (c.put data h).buf.length = c.buf.length := by
  have hpos := c.pos_le
  unfold remaining at h
  simp only [put, List.length_append, List.length_take, List.length_drop]
  omega

theorem remaining_put {c : Cursor} {data : Bytes} (h : data.length ≤ c.remaining) :
    (c.put data h).remaining = c.remaining - data.length := by
  rw [remaining, length_put]
  show c.buf.length - (c.pos + data.length) = c.buf.length - c.pos - data.length
  omega

theorem advance_congr {c : Cursor} {m n : Nat} (h : m = n) (hm : m ≤ c.remaining)
    (hn : n ≤ c.remaining) : c.advance m hm = c.advance n hn := by
  subst h
  rfl

theorem advance_advance {c : Cursor} {m n : Nat} (hm : m ≤ c.remaining)
    (hn : n ≤ (c.advance m hm).remaining) (hboth : m + n ≤ c.remaining) :
    (c.advance m hm).advance n hn = c.advance (m + n) hboth := by
  unfold advance
  simp only [mk.injEq, true_and]
  exact Nat.add_assoc _ _ _

/-! ## Runs of writes -/

/-- From `c` to `c'` the string `data` was written. -/
structure Writes (c c' : Cursor) (data : Bytes) : Prop where
  pos_eq : c'.pos = c.pos + data.length
  buf_eq : c'.buf = c.buf.take c.pos ++ data ++ c.buf.drop c'.pos

theorem writes_put {c : Cursor} {data : Bytes} (h : data.length ≤ c.remaining) :
    c.Writes (c.put data h) data := ⟨rfl, rfl⟩

theorem Writes.refl (c : Cursor) : c.Writes c [] :=
  ⟨rfl, by rw [List.append_nil, List.take_append_drop]⟩

/-- What was written stands at the start of the run. -/
theorem Writes.drop_pos {c c' : Cursor} {data : Bytes} (h : c.Writes c' data) :
    c'.buf.drop c.pos = data ++ c.buf.drop c'.pos := by
  have hlen : (c.buf.take c.pos).length = c.pos := List.length_take_of_le c.pos_le
  rw [h.buf_eq, List.append_assoc, List.drop_left' hlen]

/-- Before the start of the run nothing changed, and its bytes come next. -/
theorem Writes.take_pos {c c' : Cursor} {data : Bytes} (h : c.Writes c' data) :
    c'.buf.take c'.pos = c.buf.take c.pos ++ data := by
  have hlen : (c.buf.take c.pos ++ data).length = c'.pos := by
    rw [List.length_append, List.length_take_of_le c.pos_le, h.pos_eq]
  rw [h.buf_eq, List.take_left' hlen]

/-- Behind the end of the run nothing changed. -/
theorem Writes.drop_end {c c' : Cursor} {data : Bytes} (h : c.Writes c' data) {n : Nat}
    (hn : c'.pos ≤ n) : c'.buf.drop n = c.buf.drop n := by
  have hlen : (c.buf.take c.pos ++ data).length = c'.pos := by
    rw [List.length_append, List.length_take_of_le c.pos_le, h.pos_eq]
  obtain ⟨k, rfl⟩ := Nat.exists_eq_add_of_le hn
  rw [← List.drop_drop, h.buf_eq, List.drop_left' hlen, List.drop_drop]

/-- Two runs in a row are one run. -/
theorem Writes.append {c c' c'' : Cursor} {data data' : Bytes} (h : c.Writes c' data)
    (h' : c'.Writes c'' data') : c.Writes c'' (data ++ data') where
  pos_eq := by
    rw [h'.pos_eq, h.pos_eq, List.length_append, Nat.add_assoc]
  buf_eq := by
    have hle : c'.pos ≤ c''.pos := by
      rw [h'.pos_eq]
      exact Nat.le_add_right _ _
    rw [h'.buf_eq, h.take_pos, h.drop_end hle]
    simp only [List.append_assoc]

theorem put_put {c : Cursor} {data data' : Bytes} (h : data.length ≤ c.remaining)
    (h' : data'.length ≤ (c.put data h).remaining)
    (hboth : (data ++ data').length ≤ c.remaining) :
    (c.put data h).put data' h' = c.put (data ++ data') hboth := by
  have hrun := (writes_put h).append (writes_put h')
  have hpos : ((c.put data h).put data' h').pos = (c.put (data ++ data') hboth).pos := hrun.pos_eq
  apply Cursor.ext _ hpos
  rw [hrun.buf_eq, hpos]
  rfl

/-! ## Reading -/

/-- The string that comes next is read whole. -/
theorem next_of_drop {c : Cursor} {data rest : Bytes} (h : c.buf.drop c.pos = data ++ rest) :
    c.next data.length = data := by
  rw [next, sliceAt, h, List.take_left' rfl]

theorem le_remaining_of_drop {c : Cursor} {data rest : Bytes}
    (h : c.buf.drop c.pos = data ++ rest) : data.length ≤ c.remaining := by
  have hlen := congrArg List.length h
  rw [List.length_drop, List.length_append] at hlen
  unfold remaining
  omega

theorem drop_advance {c : Cursor} {data rest : Bytes} (h : c.buf.drop c.pos = data ++ rest) :
    (c.advance data.length (le_remaining_of_drop h)).buf.drop
      (c.advance data.length (le_remaining_of_drop h)).pos = rest := by
  show c.buf.drop (c.pos + data.length) = rest
  rw [← List.drop_drop, h, List.drop_left' rfl]

end Cursor

end Trelis
