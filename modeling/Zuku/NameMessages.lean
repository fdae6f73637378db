import Zuku.Rendezvous

/-!
# The messages of a rendezvous

The target of a key sends the names of its instances to the source, with the
generations of a barrier that tells when they are ready, and the source sends
the target once the barrier on which the completions of the copies arrive.
-/

namespace Zuku

open Event

variable {ε ι : Type}

/-- The generation of the ready barrier and the instance of a target operation. -/
abbrev TargetName (ι : Type) := Barrier × ι

def nameMessage (space : ℕ) (name : TargetName ι) : NameMessage ι :=
  ⟨space, some name.1, some name.2⟩

def ackMessage (space ack : ℕ) : NameMessage ι := ⟨space, some ⟨ack, 0⟩, none⟩

/-- The name a message carries; the message of the ack barrier carries none. -/
def messageName (message : NameMessage ι) : Option (TargetName ι) :=
  message.barrier.bind fun barrier ↦ message.regionInstance.map fun i ↦ (barrier, i)

def names (messages : List (NameMessage ι)) : List (TargetName ι) :=
  messages.filterMap messageName

def acks (messages : List (NameMessage ι)) : List (NameMessage ι) :=
  messages.filter fun message ↦ message.regionInstance.isNone

def targetNames (ready : ℕ) (targets : List (Served ε ι)) : List (TargetName ι) :=
  targets.mapIdx fun k op ↦ (⟨ready, k⟩, op.1.regionInstance)

@[simp] theorem names_nil : names ([] : List (NameMessage ι)) = [] := rfl

@[simp] theorem acks_nil : acks ([] : List (NameMessage ι)) = [] := rfl

@[simp] theorem names_push_name (messages : List (NameMessage ι)) (space : ℕ)
    (name : TargetName ι) :
    names (messages ++ [nameMessage space name]) = names messages ++ [name] := by
  simp [names, messageName, nameMessage]

@[simp] theorem names_push_ack (messages : List (NameMessage ι)) (space ack : ℕ) :
    names (messages ++ [ackMessage space ack]) = names messages := by
  simp [names, messageName, ackMessage]

@[simp] theorem acks_push_name (messages : List (NameMessage ι)) (space : ℕ)
    (name : TargetName ι) : acks (messages ++ [nameMessage space name]) = acks messages := by
  simp [acks, nameMessage]

@[simp] theorem acks_push_ack (messages : List (NameMessage ι)) (space ack : ℕ) :
    acks (messages ++ [ackMessage space ack]) = acks messages ++ [ackMessage space ack] := by
  simp [acks, ackMessage]

@[simp] theorem length_targetNames (ready : ℕ) (targets : List (Served ε ι)) :
    (targetNames ready targets).length = targets.length := by simp [targetNames]

theorem targetNames_push (ready : ℕ) (targets : List (Served ε ι)) (op : Served ε ι) :
    targetNames ready (targets ++ [op]) =
      targetNames ready targets ++ [(⟨ready, targets.length⟩, op.1.regionInstance)] := by
  simp [targetNames, List.mapIdx_append]

theorem perm_cons_eraseIdx {α : Type} {xs : List α} {i : ℕ} {x : α} (hx : xs[i]? = some x) :
    xs.Perm (x :: xs.eraseIdx i) := by
  obtain ⟨hi, rfl⟩ := List.getElem?_eq_some_iff.mp hx
  exact (List.getElem_cons_eraseIdx_perm hi).symm

theorem names_eraseIdx_name {messages : List (NameMessage ι)} {i space : ℕ}
    {name : TargetName ι} (hi : messages[i]? = some (nameMessage space name)) :
    (names messages).Perm (name :: names (messages.eraseIdx i)) :=
  (perm_cons_eraseIdx hi).filterMap messageName

theorem filterMap_eraseIdx_of_none {α β : Type} {f : α → Option β} {xs : List α} {i : ℕ} {x : α}
    (hi : xs[i]? = some x) (hx : f x = none) : (xs.eraseIdx i).filterMap f = xs.filterMap f := by
  induction xs generalizing i with
  | nil => simp at hi
  | cons y xs ih =>
      cases i with
      | zero =>
          obtain rfl : y = x := by simpa using hi
          rw [List.eraseIdx_cons_zero, List.filterMap_cons_none hx]
      | succ i =>
          rw [List.eraseIdx_cons_succ, List.filterMap_cons, List.filterMap_cons,
            ih (by simpa using hi)]

theorem names_eraseIdx_ack {messages : List (NameMessage ι)} {i space ack : ℕ}
    (hi : messages[i]? = some (ackMessage space ack)) :
    names (messages.eraseIdx i) = names messages :=
  filterMap_eraseIdx_of_none hi rfl

theorem acks_eraseIdx_name {messages : List (NameMessage ι)} {i space : ℕ}
    {name : TargetName ι} (hi : messages[i]? = some (nameMessage space name)) :
    (acks messages).Perm (acks (messages.eraseIdx i)) :=
  (perm_cons_eraseIdx hi).filter _

theorem acks_eraseIdx_ack {messages : List (NameMessage ι)} {i space ack : ℕ}
    (hi : messages[i]? = some (ackMessage space ack)) :
    (acks messages).Perm (ackMessage space ack :: acks (messages.eraseIdx i)) :=
  (perm_cons_eraseIdx hi).filter _

theorem names_eraseIdx_of_take {messages : List (NameMessage ι)} {i space : ℕ}
    {name : TargetName ι} (hi : messages[i]? = some (nameMessage space name))
    (hearlier : names (messages.take i) = []) :
    names messages = name :: names (messages.eraseIdx i) := by
  obtain ⟨hlt, hget⟩ := List.getElem?_eq_some_iff.mp hi
  have hsplit : messages = messages.take i ++ nameMessage space name :: messages.drop (i + 1) := by
    rw [← hget, List.cons_getElem_drop_succ, List.take_append_drop]
  have herase : names (messages.eraseIdx i) = names (messages.drop (i + 1)) := by
    rw [List.eraseIdx_eq_take_drop_succ, names, List.filterMap_append]
    exact congrArg (· ++ names (messages.drop (i + 1))) hearlier
  rw [herase]
  calc names messages
      = names (messages.take i ++ nameMessage space name :: messages.drop (i + 1)) :=
        congrArg names hsplit
    _ = names (messages.take i) ++ name :: names (messages.drop (i + 1)) := by
        simp [names, messageName, nameMessage]
    _ = name :: names (messages.drop (i + 1)) := by rw [hearlier, List.nil_append]

/-- The messages of a key, in flight and delivered.  `inOrder` says that every
name was delivered before the names sent after it. -/
structure Traffic (spaces : KeySpaces) (ack ready : ℕ) (opened acked inOrder : Prop)
    (targets : List (Served ε ι)) (messages delivered : List (NameMessage ι)) : Prop where
  acks_messages : opened → ¬acked → acks messages = [ackMessage spaces.target ack]
  acks_messages_nil : ¬opened ∨ acked → acks messages = []
  acks_delivered : acked → acks delivered = [ackMessage spaces.target ack]
  acks_delivered_nil : ¬acked → acks delivered = []
  opened_of_acked : acked → opened
  name_of_mem : ∀ message ∈ messages, message.regionInstance.isSome →
    ∃ name, message = nameMessage spaces.source name
  names_perm : (names delivered ++ names messages).Perm (targetNames ready targets)
  names_eq : inOrder → names delivered ++ names messages = targetNames ready targets

namespace Traffic

variable {spaces : KeySpaces} {ack ready : ℕ} {opened acked inOrder : Prop}
  {targets : List (Served ε ι)} {messages delivered : List (NameMessage ι)}

/-- The source sends its barrier once. -/
theorem openAck (h : Traffic spaces ack ready opened acked inOrder targets messages delivered)
    (hopened : ¬opened) {opened' : Prop} (hopened' : opened') (ack' : ℕ) :
    Traffic spaces ack' ready opened' acked inOrder targets
      (messages ++ [ackMessage spaces.target ack']) delivered where
  acks_messages _ _ := by rw [acks_push_ack, h.acks_messages_nil (Or.inl hopened)]; rfl
  acks_messages_nil hno := by
    rcases hno with hno | hacked
    · exact absurd hopened' hno
    · exact absurd (h.opened_of_acked hacked) hopened
  acks_delivered hacked := absurd (h.opened_of_acked hacked) hopened
  acks_delivered_nil := h.acks_delivered_nil
  opened_of_acked _ := hopened'
  name_of_mem message hmem hname := by
    rcases List.mem_append.mp hmem with hmem | hmem
    · exact h.name_of_mem message hmem hname
    · rw [List.mem_singleton.mp hmem] at hname
      exact absurd hname (by simp [ackMessage])
  names_perm := by simpa using h.names_perm
  names_eq := by simpa using h.names_eq

/-- The target sends the name of its next instance. -/
theorem sendName (h : Traffic spaces ack ready opened acked inOrder targets messages delivered)
    (op : Served ε ι) :
    Traffic spaces ack ready opened acked inOrder (targets ++ [op])
      (messages ++ [nameMessage spaces.source (⟨ready, targets.length⟩, op.1.regionInstance)])
      delivered where
  acks_messages := by simpa using h.acks_messages
  acks_messages_nil := by simpa using h.acks_messages_nil
  acks_delivered := h.acks_delivered
  acks_delivered_nil := h.acks_delivered_nil
  opened_of_acked := h.opened_of_acked
  name_of_mem message hmem hname := by
    rcases List.mem_append.mp hmem with hmem | hmem
    · exact h.name_of_mem message hmem hname
    · exact ⟨_, List.mem_singleton.mp hmem⟩
  names_perm := by
    rw [names_push_name, targetNames_push, ← List.append_assoc]
    exact h.names_perm.append_right _
  names_eq horder := by
    rw [names_push_name, targetNames_push, ← List.append_assoc, h.names_eq horder]

/-- While nothing is sent, the barrier of the target may be any. -/
theorem rename (h : Traffic spaces ack ready opened acked inOrder ([] : List (Served ε ι))
    messages delivered) (ready' : ℕ) :
    Traffic spaces ack ready' opened acked inOrder ([] : List (Served ε ι)) messages delivered :=
  { h with names_perm := h.names_perm, names_eq := h.names_eq }

theorem deliverName
    (h : Traffic spaces ack ready opened acked inOrder targets messages delivered)
    {i : ℕ} {name : TargetName ι} (hi : messages[i]? = some (nameMessage spaces.source name)) :
    Traffic spaces ack ready opened acked (inOrder ∧ names (messages.take i) = []) targets
      (messages.eraseIdx i) (delivered ++ [nameMessage spaces.source name]) where
  acks_messages hopened hacked := by
    have hperm := acks_eraseIdx_name hi
    rw [h.acks_messages hopened hacked] at hperm
    exact List.perm_singleton.mp hperm.symm
  acks_messages_nil hno := by
    have hperm := acks_eraseIdx_name hi
    rw [h.acks_messages_nil hno] at hperm
    exact List.nil_perm.mp hperm
  acks_delivered := by simpa using h.acks_delivered
  acks_delivered_nil := by simpa using h.acks_delivered_nil
  opened_of_acked := h.opened_of_acked
  name_of_mem message hmem := h.name_of_mem message (List.eraseIdx_subset hmem)
  names_perm := by
    rw [names_push_name, List.append_assoc]
    exact ((names_eraseIdx_name hi).symm.append_left _).trans h.names_perm
  names_eq horder := by
    rw [names_push_name, List.append_assoc, List.singleton_append,
      ← names_eraseIdx_of_take hi horder.2, h.names_eq horder.1]

/-- A message in flight is a name, or the message of the ack barrier. -/
theorem cases_of_mem
    (h : Traffic spaces ack ready opened acked inOrder targets messages delivered)
    {message : NameMessage ι} (hmem : message ∈ messages) :
    (∃ name, message = nameMessage spaces.source name) ∨
      (message = ackMessage spaces.target ack ∧ opened ∧ ¬acked) := by
  by_cases hname : message.regionInstance.isSome
  · exact Or.inl (h.name_of_mem message hmem hname)
  have hack : message ∈ acks messages :=
    List.mem_filter.mpr ⟨hmem, by simpa using hname⟩
  by_cases hno : ¬opened ∨ acked
  · rw [h.acks_messages_nil hno] at hack
    exact absurd hack List.not_mem_nil
  · push Not at hno
    rw [h.acks_messages hno.1 hno.2] at hack
    exact Or.inr ⟨List.mem_singleton.mp hack, hno⟩

theorem deliverAck
    (h : Traffic spaces ack ready opened acked inOrder targets messages delivered)
    {i : ℕ} (hi : messages[i]? = some (ackMessage spaces.target ack)) (hopened : opened)
    (hacked : ¬acked) {acked' : Prop} (hacked' : acked') :
    Traffic spaces ack ready opened acked' inOrder targets (messages.eraseIdx i)
      (delivered ++ [ackMessage spaces.target ack]) where
  acks_messages _ hno := absurd hacked' hno
  acks_messages_nil _ := by
    have hperm := acks_eraseIdx_ack hi
    rw [h.acks_messages hopened hacked] at hperm
    exact List.nil_perm.mp ((List.perm_cons _).mp hperm)
  acks_delivered _ := by rw [acks_push_ack, h.acks_delivered_nil hacked, List.nil_append]
  acks_delivered_nil hno := absurd hacked' hno
  opened_of_acked _ := hopened
  name_of_mem message hmem := h.name_of_mem message (List.eraseIdx_subset hmem)
  names_perm := by
    rw [names_push_ack, names_eraseIdx_ack hi]
    exact h.names_perm
  names_eq := by
    rw [names_push_ack, names_eraseIdx_ack hi]
    exact h.names_eq

end Traffic

end Zuku
