import HarvestMoE.Lib.OnlineSoftmax

/-!
# Attention with grouped heads

A query attends to a list of keys and values. Each head of the keys and values serves a group
of heads of the query.

## Main definitions

* `KvRow` — the key and the value of a token.
* `gqaScore`, `gqaAttention` — the scores of a query head, and its average of the values.
-/

namespace Lib

/-- The key and the value of a token, by head and entry. -/
structure KvRow (K : Type*) where
  key : ℕ → ℕ → K
  value : ℕ → ℕ → K

instance {K : Type*} [Zero K] : Inhabited (KvRow K) := ⟨⟨fun _ _ => 0, fun _ _ => 0⟩⟩

variable {K : Type*} [Field K]

/-- The scaled product of query head `h` with key `t`. -/
def gqaScore (scale : K) (headSize group : ℕ) (q : ℕ → ℕ → K) (kv : ℕ → KvRow K) (h t : ℕ) : K :=
  scale * ∑ d ∈ Finset.range headSize, q h d * (kv t).key (h / group) d

/-- Entry `d` of the attention of query head `h` to `len` keys. -/
def gqaAttention (exp : K → K) (scale : K) (headSize group : ℕ) (q : ℕ → ℕ → K)
    (kv : ℕ → KvRow K) (len h d : ℕ) : K :=
  ∑ t ∈ Finset.range len,
    softmax exp (gqaScore scale headSize group q kv h) (Finset.range len) t *
      (kv t).value (h / group) d

variable {exp : K → K} {scale : K} {headSize group group' len h h' d : ℕ} {q q' : ℕ → ℕ → K}
  {kv kv' : ℕ → KvRow K}

/-- Attention reads its own head of the query, the head of the group, and the keys there are. -/
theorem gqaAttention_congr (hq : ∀ e < headSize, q h e = q' h' e)
    (hkey : ∀ t < len, ∀ e < headSize, (kv t).key (h / group) e = (kv' t).key (h' / group') e)
    (hvalue : ∀ t < len, (kv t).value (h / group) d = (kv' t).value (h' / group') d) :
    gqaAttention exp scale headSize group q kv len h d =
      gqaAttention exp scale headSize group' q' kv' len h' d := by
  have hscore : ∀ t ∈ Finset.range len, gqaScore scale headSize group q kv h t =
      gqaScore scale headSize group' q' kv' h' t := by
    intro t ht
    rw [gqaScore, gqaScore]
    congr 1
    refine Finset.sum_congr rfl fun e he => ?_
    rw [hq e (Finset.mem_range.mp he),
      hkey t (Finset.mem_range.mp ht) e (Finset.mem_range.mp he)]
  refine Finset.sum_congr rfl fun t ht => ?_
  rw [softmax, softmax, hscore t ht, hvalue t (Finset.mem_range.mp ht)]
  congr 2
  exact Finset.sum_congr rfl fun u hu => by rw [hscore u hu]

end Lib
