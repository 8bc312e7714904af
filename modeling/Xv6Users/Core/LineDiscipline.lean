import Mathlib

/-!
# Lines that are edited and read

Keys edit a line until it is committed, and committed text is read in replies.  A reply
ends with a newline, before an end-of-file mark or at its size; the mark itself is an empty
reply.
-/

namespace Xv6Users.LineDiscipline

open List

variable {α : Type*}

/-- A key that reaches the editor; `commits` says that it ends the line. -/
inductive Key (α : Type*) where
  | erase
  | kill
  | type (char : α) (commits : Bool)

/-- What has been committed, and the line that can still be edited. -/
structure Text (α : Type*) where
  committed : List α
  line : List α

def Text.press (text : Text α) : Key α → Text α
  | .erase => { text with line := text.line.dropLast }
  | .kill => { text with line := [] }
  | .type char false => { text with line := text.line ++ [char] }
  | .type char true => ⟨text.committed ++ (text.line ++ [char]), []⟩

def edited (keys : List (Key α)) : Text α :=
  keys.foldl Text.press ⟨[], []⟩

@[simp]
theorem edited_concat (keys : List (Key α)) (key : Key α) :
    edited (keys ++ [key]) = (edited keys).press key := by
  rw [edited, foldl_append]
  rfl

/-- What a read of this size returned. -/
structure Reply (α : Type*) where
  size : ℕ
  bytes : List α

section Replies

variable {newline mark : α} {stream rest more : List α} {replies : List (Reply α)}
  {reply : Reply α}

/-- Why a reply ends where it does, if `rest` comes next. -/
structure Ends (newline mark : α) (reply : Reply α) (rest : List α) : Prop where
  length : reply.bytes.length ≤ reply.size
  unmarked : mark ∉ reply.bytes
  unbroken : newline ∉ reply.bytes.dropLast
  stops : reply.bytes.length = reply.size ∨ reply.bytes.getLast? = some newline ∨
    rest.head? = some mark

/-- The replies are the text in order, up to what is left. -/
inductive Served (newline mark : α) (stream : List α) : List (Reply α) → List α → Prop where
  | start : Served newline mark stream [] stream
  | mark {replies : List (Reply α)} {size : ℕ} {rest : List α} :
      Served newline mark stream replies (mark :: rest) →
      Served newline mark stream (replies ++ [⟨size, []⟩]) rest
  | bytes {replies : List (Reply α)} {reply : Reply α} {rest : List α} :
      Served newline mark stream replies (reply.bytes ++ rest) →
      reply.bytes ≠ [] → Ends newline mark reply rest →
      Served newline mark stream (replies ++ [reply]) rest

theorem Ends.extend (hends : Ends newline mark reply rest) (more : List α) :
    Ends newline mark reply (rest ++ more) where
  length := hends.length
  unmarked := hends.unmarked
  unbroken := hends.unbroken
  stops := by
    apply hends.stops.imp_right
    apply Or.imp_right
    intro hhead
    rw [head?_append, hhead]
    rfl

/-- More text can be committed at any time. -/
theorem Served.extend (hserved : Served newline mark stream replies rest) (more : List α) :
    Served newline mark (stream ++ more) replies (rest ++ more) := by
  induction hserved with
  | start => exact .start
  | mark _ ih => exact .mark ih
  | bytes _ hbytes hends ih =>
    rw [append_assoc] at ih
    exact .bytes ih hbytes (hends.extend more)

def Reply.taken (mark : α) (reply : Reply α) : List α :=
  if reply.bytes.isEmpty then [mark] else reply.bytes

theorem taken_of_ne_nil (hbytes : reply.bytes ≠ []) : reply.taken mark = reply.bytes := by
  rw [Reply.taken, if_neg]
  rwa [List.isEmpty_iff]

/-- No part of the text is lost or read twice. -/
theorem Served.flatMap (hserved : Served newline mark stream replies rest) :
    stream = replies.flatMap (Reply.taken mark) ++ rest := by
  induction hserved with
  | start => rfl
  | mark _ ih =>
    rw [ih, flatMap_append, append_assoc]
    rfl
  | bytes _ hbytes _ ih =>
    rw [ih, flatMap_append, append_assoc, flatMap_singleton, taken_of_ne_nil hbytes]

/-- Each mark that is read is one empty reply. -/
theorem Served.countP [DecidableEq α] (hserved : Served newline mark stream replies rest) :
    stream.count mark = replies.countP (·.bytes.isEmpty) + rest.count mark := by
  induction hserved with
  | start => exact (Nat.zero_add _).symm
  | mark _ ih =>
    rw [ih, countP_append, count_cons_self, Nat.add_assoc, Nat.add_comm _ 1]
    rfl
  | bytes _ hbytes hends ih =>
    rw [ih, countP_append, count_append, count_eq_zero.2 hends.unmarked, Nat.zero_add]
    simp [hbytes]

end Replies

end Xv6Users.LineDiscipline
