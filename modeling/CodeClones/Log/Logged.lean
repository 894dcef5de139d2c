import CodeClones.Log.Entry

/-!
# Log/Logged — values with the entries of their computation

`Logged α` is a value of type `α` together with the log entries of its computation, in order.
Entries never influence values: `value_bind` says that sequencing acts on values alone.
-/

namespace CodeClones.Log

variable {α β : Type}

structure Logged (α : Type) where
  value : α
  entries : List Entry

namespace Logged

instance : Monad Logged where
  pure a := ⟨a, []⟩
  bind x f := ⟨(f x.value).value, x.entries ++ (f x.value).entries⟩

/-- Report one entry. -/
def report (entry : Entry) : Logged Unit :=
  ⟨(), [entry]⟩

@[simp] theorem value_pure (a : α) : (pure a : Logged α).value = a := rfl

/-- **Entries never influence values.** -/
@[simp] theorem value_bind (x : Logged α) (f : α → Logged β) :
    (x >>= f).value = (f x.value).value := rfl

@[simp] theorem value_map (f : α → β) (x : Logged α) : (f <$> x).value = f x.value := rfl

@[simp] theorem entries_pure (a : α) : (pure a : Logged α).entries = [] := rfl

@[simp] theorem entries_bind (x : Logged α) (f : α → Logged β) :
    (x >>= f).entries = x.entries ++ (f x.value).entries := rfl

@[simp] theorem entries_report (entry : Entry) : (report entry).entries = [entry] := rfl

end Logged

end CodeClones.Log
