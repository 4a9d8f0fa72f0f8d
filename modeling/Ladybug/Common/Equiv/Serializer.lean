import Ladybug.Common.Serializer

/-!
# Deserializing what was serialized

`Parses p bytes a`: in front of any other bytes, the program `p` reads `bytes`, no more and no less,
and returns `a`. The rules follow the ways in which programs are put together; the functions of the
deserializer read what those of the serializer wrote.
-/

namespace Ladybug

open List

variable {α β : Type}

namespace ReadProgram

@[simp] lemma bind_eq_bind (p : ReadProgram α) (f : α → ReadProgram β) : (p >>= f) = p.bind f := rfl

lemma feed_bind (p : ReadProgram α) (f : α → ReadProgram β) (bytes : List UInt8) :
    (p.bind f).feed bytes = (p.feed bytes).bind fun x => (f x.1).feed x.2 := by
  induction p generalizing bytes with
  | done a | throw message => rfl
  | read data next ih =>
    simp only [bind, feed, ih]
    split
    · rfl
    · rfl

end ReadProgram

/-- The program reads exactly these bytes and returns the value. -/
def Parses (p : ReadProgram α) (bytes : List UInt8) (a : α) : Prop :=
  ∀ rest, p.feed (bytes ++ rest) = some (a, rest)

variable {a : α} {bytes : List UInt8} {p : ReadProgram α}

lemma Parses.feed (h : Parses p bytes a) : p.feed bytes = some (a, []) := by
  simpa using h []

/-! ### How programs are put together -/

lemma Parses.pure (a : α) : Parses (Pure.pure a) [] a := fun _ => rfl

lemma Parses.bind {f : α → ReadProgram β} {bytes' : List UInt8}
    {b : β} (hp : Parses p bytes a) (hf : Parses (f a) bytes' b) :
    Parses (p >>= f) (bytes ++ bytes') b := by
  intro rest
  rw [ReadProgram.bind_eq_bind, ReadProgram.feed_bind, append_assoc, hp]
  exact hf rest

lemma Parses.bind_pure {g : α → β}
    (hp : Parses p bytes a) : Parses (p >>= fun a => Pure.pure (g a)) bytes (g a) := by
  have h : Parses (p >>= fun a => Pure.pure (g a)) (bytes ++ []) (g a) :=
    Parses.bind hp (Parses.pure (g a))
  rwa [append_nil] at h

/-! ### Values -/

lemma parses_read {n : ℕ} {next : List UInt8 → ReadProgram α}
    (hlen : bytes.length = n) (hnext : next bytes = .done a) :
    Parses (.read (List.replicate n 0) next) bytes a := by
  subst hlen
  intro rest
  simp [ReadProgram.feed, hnext]

lemma parses_value [Trivial α] (a : α) :
    Parses (deserializeValue α) (serializeValue a).flatten a := by
  rw [serializeValue, flatten_singleton]
  apply parses_read (Trivial.length_toBytes a)
  rw [Trivial.ofBytes_toBytes]

/-! ### Vectors -/

section

variable {serialize : α → List (List UInt8)} {deserialize : ReadProgram α}

lemma parses_elements {values : List α}
    (h : ∀ a ∈ values, Parses deserialize (serialize a).flatten a) :
    Parses (deserializeElements deserialize values.length) (values.flatMap serialize).flatten
      values := by
  induction values with
  | nil => exact Parses.pure []
  | cons a values ih =>
    rw [flatMap_cons, flatten_append]
    refine (h a mem_cons_self).bind ?_
    exact (ih fun b hb => h b (mem_cons_of_mem a hb)).bind_pure

end

end Ladybug
