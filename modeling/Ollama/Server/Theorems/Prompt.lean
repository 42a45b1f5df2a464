import Ollama.Server.Prompt
import Mathlib.Data.List.Forall2

/-!
# What the prompt of a chat keeps

`chatPrompt` looks for the messages that fit from the last one back, with the system messages before each start, and
stops at the first start from which they do not fit. The system messages it has then are those before the message it
stopped at, and the messages it keeps are those after it: the message itself is in neither. So the last execution of
the template gets all system messages before some place and everything from there on exactly if the message at which
the search stops is not a system message (`chatPrompt_keeps_iff`).
-/

namespace Ollama.Server

open Lib

/-- A list of messages that keeps what it must: the system messages before some place, and all messages from there on,
the last one at least. -/
def Keeps (msgs final : List Message) : Prop :=
  ∃ n, n < msgs.length ∧ final = systemMessages (msgs.take n) ++ msgs.drop n

/-- The same message, but for tags in the text of one with images. -/
def Tagged (msg msg' : Message) : Prop :=
  msg'.role = msg.role ∧ msg'.images = msg.images ∧ msg'.toolCalls = msg.toolCalls ∧
    (msg.images = [] → msg'.content = msg.content)

section

variable (env : PromptEnv) (m : ChatModel) (numCtx : Int)

/-- The messages from `i` on exceed the context window. -/
def TooLong (msgs : List Message) (i : Nat) : Prop := ∃ len, ctxLen env m msgs i = .ok len ∧ numCtx < len

/-- Where the search stops: the last place before the last message from which the messages exceed the context window. -/
def StopsAt (msgs : List Message) (i : Nat) : Prop :=
  i + 1 < msgs.length ∧ TooLong env m numCtx msgs i ∧ ∀ k, i < k → k + 1 < msgs.length → ¬TooLong env m numCtx msgs k

end

namespace PromptAux

variable {env : PromptEnv} {m : ChatModel} {numCtx : Int} {msgs : List Message}

/-! ## What is kept -/

theorem keeps_getLast {final : List Message} (h : Keeps msgs final) : final.getLast? = msgs.getLast? := by
  obtain ⟨n, hn, rfl⟩ := h
  have hne : msgs.drop n ≠ [] := by
    intro hnil
    have := List.drop_eq_nil_iff.1 hnil
    omega
  rw [List.getLast?_append_of_ne_nil _ hne, List.getLast?_drop, if_neg (by omega)]

theorem keeps_systemMessages {final : List Message} (h : Keeps msgs final) :
    systemMessages final = systemMessages msgs := by
  obtain ⟨n, -, rfl⟩ := h
  rw [systemMessages, List.filter_append, systemMessages, List.filter_filter]
  simp only [Bool.and_self]
  rw [← List.filter_append, List.take_append_drop, systemMessages]

/-! ## The tags -/

/-- The place of an image says nothing about the message: only its text is written. -/
theorem tagMessage_tagged {images images' : List ImageData} {msg msg' : Message}
    (h : tagMessage env m images msg = .ok (msg', images')) : Tagged msg msg' := by
  rw [tagMessage] at h
  split at h
  · nomatch h
  · rename_i s hs
    obtain ⟨rfl, -⟩ := Prod.mk.inj (Except.ok.inj h)
    refine ⟨rfl, rfl, rfl, fun hnone => ?_⟩
    rw [hnone] at hs
    obtain rfl := Except.ok.inj hs
    simp

theorem tagMessages_tagged {images images' : List ImageData} {msgs' : List Message}
    (h : tagMessages env m images msgs = .ok (msgs', images')) : List.Forall₂ Tagged msgs msgs' := by
  induction msgs generalizing images msgs' images' with
  | nil =>
    obtain ⟨rfl, -⟩ := Prod.mk.inj (Except.ok.inj h)
    exact .nil
  | cons msg msgs ih =>
    rw [tagMessages] at h
    split at h
    · nomatch h
    · rename_i msg₁ images₁ hmsg
      split at h
      · nomatch h
      · rename_i msgs₁ images₂ hmsgs
        obtain ⟨rfl, -⟩ := Prod.mk.inj (Except.ok.inj h)
        exact .cons (tagMessage_tagged hmsg) (ih hmsgs)

theorem Tagged.refl (msg : Message) : Tagged msg msg := ⟨rfl, rfl, rfl, fun _ => rfl⟩

/-! ## The search -/

/-- How the search ends: at the first message, or before the message it stops at. -/
def Ends (env : PromptEnv) (m : ChatModel) (numCtx : Int) (msgs : List Message) (left : Nat)
    (r : List Message × Nat) : Prop :=
  (r = ([], 0) ∧ ∀ k < left, ¬TooLong env m numCtx msgs k) ∨
    ∃ i < left, r = (systemMessages (msgs.take i), i + 1) ∧ TooLong env m numCtx msgs i ∧ ∀ k, i < k → k < left →
    ¬TooLong env m numCtx msgs k

/-- From where the messages fit, the search goes on with the message before. -/
theorem search_ends {left : Nat} {system : List Message} {r : List Message × Nat} (hsystem : left = 0 → system = [])
    (h : search env m numCtx msgs left system left = .ok r) : Ends env m numCtx msgs left r := by
  induction left generalizing system with
  | zero =>
    rw [search, hsystem rfl] at h
    exact .inl ⟨(Except.ok.inj h).symm, fun k hk => absurd hk (Nat.not_lt_zero k)⟩
  | succ i ih =>
    rw [search] at h
    split at h
    · nomatch h
    split at h
    · nomatch h
    rw [if_neg (Nat.ne_of_lt (Nat.lt_succ_self i))] at h
    split at h
    · nomatch h
    rename_i len hlen
    split at h
    · rename_i hlong
      have htoo : TooLong env m numCtx msgs i := ⟨len, hlen, hlong⟩
      exact .inr ⟨i, Nat.lt_succ_self i, (Except.ok.inj h).symm, htoo, fun k hik hk => by omega⟩
    · rename_i hfits
      have hfit : ¬TooLong env m numCtx msgs i := by
        rintro ⟨len', hlen', hlong⟩
        obtain rfl := Except.ok.inj (hlen.symm.trans hlen')
        exact hfits hlong
      have hbelow : ∀ {k : Nat}, ¬(k < i ∧ TooLong env m numCtx msgs k) → k < i + 1 → ¬TooLong env m numCtx msgs k := by
        intro k hk hlt htoo
        rcases Nat.lt_succ_iff_lt_or_eq.1 hlt with hlt | rfl
        · exact hk ⟨hlt, htoo⟩
        · exact hfit htoo
      rcases ih (fun hi => by subst hi; rfl) h with ⟨hr, hall⟩ | ⟨j, hj, hr, htoo, hall⟩
      · exact .inl ⟨hr, fun k => hbelow fun ⟨hk, htoo⟩ => hall k hk htoo⟩
      · exact .inr ⟨j, Nat.lt_succ_of_lt hj, hr, htoo, fun k hjk => hbelow fun ⟨hk, h⟩ => hall k hjk hk h⟩

/-- The last message is in without a look at its length. -/
theorem search_last {r : List Message × Nat} (hne : msgs ≠ [])
    (h : search env m numCtx msgs msgs.length [] (msgs.length - 1) = .ok r) :
    Ends env m numCtx msgs (msgs.length - 1) r := by
  obtain ⟨last, hlast⟩ : ∃ last, msgs.length = last + 1 :=
    Nat.exists_eq_succ_of_ne_zero (mt List.length_eq_zero_iff.1 hne)
  rw [hlast, Nat.add_sub_cancel, search] at h
  rw [hlast, Nat.add_sub_cancel]
  split at h
  · nomatch h
  split at h
  · nomatch h
  rw [if_pos rfl] at h
  exact search_ends (fun _ => rfl) h

/-- The place where the search stops is the only one. -/
theorem stopsAt_unique {i j : Nat} (hi : StopsAt env m numCtx msgs i) (hj : StopsAt env m numCtx msgs j) : i = j := by
  rcases Nat.lt_trichotomy i j with hlt | heq | hgt
  · exact absurd hj.2.1 (hi.2.2 j hlt hj.1)
  · exact heq
  · exact absurd hi.2.1 (hj.2.2 i hgt hi.1)

/-! ## The last execution -/

/-- What the last execution gets if the search stops at `i`. -/
theorem given_stopped {i : Nat} {msg : Message} {tagged : List Message} (images : List ImageData)
    (hmsg : msgs[i]? = some msg) (htagged : List.Forall₂ Tagged (msgs.drop (i + 1)) tagged)
    (hshort : i + 1 < msgs.length) :
    let p : Prompted := ⟨systemMessages (msgs.take i), i + 1, msgs.take (i + 1) ++ tagged, images⟩
    (msg.isSystem = false → Keeps p.msgs p.given) ∧
      (msg.isSystem = true → systemMessages p.given ≠ systemMessages p.msgs) := by
  intro p
  have hlen : (msgs.take (i + 1)).length = i + 1 := List.length_take_of_le (Nat.le_of_lt hshort)
  have htake : p.msgs.take (i + 1) = msgs.take (i + 1) := List.take_left' hlen
  have hdrop : p.msgs.drop (i + 1) = tagged := List.drop_left' hlen
  have hgiven : p.given = systemMessages (msgs.take i) ++ tagged := congrArg (systemMessages (msgs.take i) ++ ·) hdrop
  have hstep : msgs.take (i + 1) = msgs.take i ++ [msg] := by
    rw [List.take_add_one, hmsg, Option.toList_some]
  constructor
  · intro hrole
    refine ⟨i + 1, ?_, ?_⟩
    · change i + 1 < (msgs.take (i + 1) ++ tagged).length
      rw [List.length_append, hlen, ← htagged.length_eq, List.length_drop]
      omega
    · have hsystem : systemMessages (msgs.take (i + 1)) = systemMessages (msgs.take i) := by
        rw [hstep, systemMessages, List.filter_append, List.filter_cons_of_neg (by simp [hrole]), List.filter_nil,
          List.append_nil, systemMessages]
      rw [htake, hdrop, hsystem, hgiven]
  · intro hrole heq
    -- Of the system messages, the last execution misses the one at which the search stops.
    have hcount : (systemMessages p.given).length = (systemMessages p.msgs).length := congrArg List.length heq
    have hmsgs : p.msgs = msgs.take i ++ [msg] ++ tagged := by rw [← hstep]
    rw [hgiven, hmsgs] at hcount
    simp [systemMessages, List.filter_append, List.filter_filter, hrole] at hcount

end PromptAux

open PromptAux in
/-- **What the last execution of the template gets is all system messages before some place and everything from there
on, so that the last message and every system message are in it, exactly if the search gets to the first message or
stops at one that is not a system message.** -/
theorem chatPrompt_keeps_iff {env : PromptEnv} {m : ChatModel} {numCtx : Int} {msgs : List Message}
    {r : Bytes × List ImageData} (h : chatPrompt env m numCtx msgs = .ok r) :
    ∃ p, promptMessages env m numCtx msgs = .ok p ∧ env.execute p.given = .ok r.1 ∧ List.Forall₂ Tagged msgs p.msgs ∧
      ((Keeps p.msgs p.given ∧ p.given.getLast? = p.msgs.getLast? ∧ systemMessages p.given = systemMessages p.msgs) ↔
        ∀ i msg, StopsAt env m numCtx msgs i → msgs[i]? = some msg → msg.isSystem = false) := by
  rw [chatPrompt] at h
  split at h
  · nomatch h
  rename_i p hp
  split at h
  · nomatch h
  rename_i prompt hprompt
  obtain rfl := Except.ok.inj h
  refine ⟨p, hp, hprompt, ?_⟩
  rw [promptMessages] at hp
  split at hp
  · nomatch hp
  rename_i hne
  split at hp
  · nomatch hp
  rename_i system n hsearch
  split at hp
  · nomatch hp
  rename_i tagged images htag
  obtain rfl := Except.ok.inj hp
  have htagged := tagMessages_tagged htag
  have hall : List.Forall₂ Tagged msgs (msgs.take n ++ tagged) := by
    conv =>
      arg 2
      rw [← List.take_append_drop n msgs]
    exact List.rel_append (List.forall₂_same.2 fun msg _ => Tagged.refl msg) htagged
  refine ⟨hall, ?_⟩
  rcases search_last hne hsearch with ⟨hr, hfits⟩ | ⟨i, hi, hr, hlong, hfits⟩
  · -- The search gets to the first message: every message is given to the template.
    obtain ⟨rfl, rfl⟩ := Prod.mk.inj hr
    have hkeeps : Keeps (msgs.take 0 ++ tagged) (⟨[], 0, msgs.take 0 ++ tagged, images⟩ : Prompted).given := by
      refine ⟨0, ?_, rfl⟩
      rw [← hall.length_eq]
      exact List.length_pos_of_ne_nil hne
    refine iff_of_true ⟨hkeeps, keeps_getLast hkeeps, keeps_systemMessages hkeeps⟩ ?_
    rintro i msg ⟨hi, htoo, -⟩ -
    exact absurd htoo (hfits i (Nat.lt_sub_of_add_lt hi))
  · obtain ⟨rfl, rfl⟩ := Prod.mk.inj hr
    have hshort : i + 1 < msgs.length := Nat.add_lt_of_lt_sub hi
    have hstops : StopsAt env m numCtx msgs i := ⟨hshort, hlong, fun k hik hk => hfits k hik (Nat.lt_sub_of_add_lt hk)⟩
    obtain ⟨msg, hmsg⟩ : ∃ msg, msgs[i]? = some msg := ⟨msgs[i], List.getElem?_eq_getElem (by omega)⟩
    obtain ⟨hkeep, hlose⟩ := given_stopped images hmsg htagged hshort
    constructor
    · rintro ⟨-, -, hsystem⟩ j msg' hj hmsg'
      obtain rfl := stopsAt_unique hstops hj
      obtain rfl := Option.some.inj (hmsg.symm.trans hmsg')
      by_contra hrole
      exact hlose (by simpa using hrole) hsystem
    · intro hrole
      have hkeeps := hkeep (hrole i msg hstops hmsg)
      exact ⟨hkeeps, keeps_getLast hkeeps, keeps_systemMessages hkeeps⟩

/-! ## A system message before a long question -/

/-- The template that writes the messages one after another, and the tokenizer with a token for each byte. -/
def plainEnv : PromptEnv where
  execute msgs := .ok (msgs.flatMap Message.content)
  tokenize s := .ok (s.map fun b => b.toNat)
  preprocess i := .ok (i, some 1)

/-- A question, an answer, and the next question. -/
def conversation : List Message :=
  [⟨ascii "user", ascii "aaa", [], []⟩, ⟨ascii "assistant", ascii "bb", [], []⟩, ⟨ascii "user", ascii "c", [], []⟩]

/-- A system message, and a question. -/
def instructed : List Message := [⟨ascii "system", ascii "aaa", [], []⟩, ⟨ascii "user", ascii "b", [], []⟩]

/-- A model without images. -/
def plainModel : ChatModel := ⟨[ascii "llama"], none⟩

theorem chatPrompt_keeps_conversation : ∃ p, promptMessages plainEnv plainModel 3 conversation = .ok p ∧
    Keeps p.msgs p.given := by
  obtain ⟨p, hp, -, -, hiff⟩ := chatPrompt_keeps_iff
    (rfl : chatPrompt plainEnv plainModel 3 conversation = .ok (ascii "bbc", []))
  refine ⟨p, hp, (hiff.2 ?_).1⟩
  intro i msg _ hmsg
  match i with
  | 0 => obtain rfl := Option.some.inj hmsg; rfl
  | 1 => obtain rfl := Option.some.inj hmsg; rfl
  | 2 => obtain rfl := Option.some.inj hmsg; rfl
  | _ + 3 => nomatch hmsg

/-- With a window of three tokens, the system message of three is dropped. -/
theorem chatPrompt_drops_system :
    ¬∀ (env : PromptEnv) (m : ChatModel) (numCtx : Int) (msgs : List Message) (r : Bytes × List ImageData),
    chatPrompt env m numCtx msgs = .ok r →
    ∃ p, promptMessages env m numCtx msgs = .ok p ∧ Keeps p.msgs p.given := by
  intro h
  obtain ⟨p, hp, n, hn, hgiven⟩ := h plainEnv plainModel 3 instructed (ascii "b", []) rfl
  obtain rfl := Except.ok.inj hp
  match n, hn with
  | 0, _ => exact absurd (congrArg List.length hgiven) (by decide)
  | 1, _ => exact absurd (congrArg List.length hgiven) (by decide)

end Ollama.Server
