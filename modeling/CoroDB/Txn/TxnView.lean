import CoroDB.Txn.Database

/-!
# What a transaction sees and what it commits

A buffer laid over the rows of a snapshot is what the transaction sees; the buffer applied by COMMIT
is what the next snapshot shows.
-/

namespace CoroDB

open Framework

variable {ν ι : Type} [DecidableEq ν] [DecidableEq ι]

section Tables

variable {tables : ν → SqlTable} {b : TxnWriteBuffer ν} {ts : UInt64} {name : ν}

theorem foldl_applyTableBuffer_of_ne {entries : List (ν × TableTxnBuffer)}
    (h : ∀ p ∈ entries, p.1 ≠ name) :
    entries.foldl (applyTableBuffer ts) tables name = tables name := by
  induction entries generalizing tables with
  | nil => rfl
  | cons p entries ih =>
    rw [List.foldl_cons, ih fun q hq => h q (List.mem_cons_of_mem _ hq), applyTableBuffer,
      Function.update_of_ne (h p List.mem_cons_self).symm]

theorem applyBuffer_apply (tables : ν → SqlTable) (b : TxnWriteBuffer ν) (ts : UInt64) (name : ν) :
    applyBuffer tables b ts name = (tables name).applyWrites (b.forTable name).writes ts := by
  have hfold : ∀ (entries : List (ν × TableTxnBuffer)) (tables : ν → SqlTable),
      (entries.Pairwise fun p q => (KeyEq.ofDecidableEq ν).eq p.1 q.1 = false) →
      entries.foldl (applyTableBuffer ts) tables name = (tables name).applyWrites
        (((entries.find? fun p => (KeyEq.ofDecidableEq ν).eq p.1 name).map Prod.snd).getD {}).writes
        ts := by
    intro entries
    induction entries with
    | nil => exact fun _ _ => rfl
    | cons p entries ih =>
      intro tables hd
      obtain ⟨hhead, htail⟩ := List.pairwise_cons.mp hd
      by_cases hp : p.1 = name
      · have hrest : ∀ q ∈ entries, q.1 ≠ name := by
          intro q hq heq
          have := hhead q hq
          rw [hp, heq] at this
          simp [KeyEq.ofDecidableEq] at this
        rw [List.foldl_cons, foldl_applyTableBuffer_of_ne hrest,
          List.find?_cons_of_pos (by simpa using hp), applyTableBuffer, ← hp, Function.update_self]
        rfl
      · rw [List.foldl_cons, ih _ htail, List.find?_cons_of_neg (by simpa using hp), applyTableBuffer,
          Function.update_of_ne (Ne.symm hp)]
  exact hfold b.entries tables b.distinct

end Tables

end CoroDB
