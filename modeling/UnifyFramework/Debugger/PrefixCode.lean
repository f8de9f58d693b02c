import UnifyFramework.Debugger.Message
import UnifyFramework.Parsing.PrefixCode

/-!
# The messages as a prefix code

The six message grammars are exact, so the byte strings that one of them consumes form a
prefix code. The first two bytes tell the grammars apart: a version begins with a digit and a
space, a notification with its marker and its number, and a reply with its marker and either
the end of the message, an integer or a name. Only the empty reply belongs to two of them.
-/

namespace UnifyFramework

namespace Debugger

open Parsing Parsing.Parser

inductive MessageGrammar
  | versionIdentification
  | statusNotification
  | exceptionNotification
  | reply
  | replyInt
  | replyNameValueArray
  deriving DecidableEq, Repr

namespace MessageGrammar

def Value : MessageGrammar → Type
  | versionIdentification => VersionIdentification
  | statusNotification => StatusNotification
  | exceptionNotification => ExceptionNotification
  | reply => Reply
  | replyInt => ReplyInt
  | replyNameValueArray => ReplyNameValueArray

def parser (sign : CharSign) : (g : MessageGrammar) → Parser UInt8 g.Value
  | versionIdentification => versionIdentificationGrammar
  | statusNotification => statusNotificationGrammar
  | exceptionNotification => exceptionNotificationGrammar
  | reply => replyGrammar
  | replyInt => replyIntGrammar
  | replyNameValueArray => replyNameValueArrayGrammar sign

/-- The grammars that are not among the default ones. -/
def isReply : MessageGrammar → Bool
  | versionIdentification | statusNotification | exceptionNotification => false
  | reply | replyInt | replyNameValueArray => true

def first : MessageGrammar → Set UInt8
  | versionIdentification => {c | 0x31 ≤ c.toNat ∧ c.toNat ≤ 0x39}
  | statusNotification | exceptionNotification => {nfy}
  | reply | replyInt | replyNameValueArray => {rep}

def second : MessageGrammar → Set UInt8
  | versionIdentification => {0x20}
  | statusNotification => {notificationStatusInt}
  | exceptionNotification => {notificationExceptionInt}
  | reply => {eom}
  | replyInt => intFirst
  | replyNameValueArray => strFirst ∪ {eom}

theorem parser_exact (sign : CharSign) (g : MessageGrammar) : Exact (g.parser sign) := by
  cases g with
  | versionIdentification => exact exactFrom_versionIdentificationGrammar.exact
  | statusNotification => exact exactFrom_statusNotificationGrammar.exact
  | exceptionNotification => exact exactFrom_exceptionNotificationGrammar.exact
  | reply => exact exactFrom_replyGrammar.exact
  | replyInt => exact exactFrom_replyIntGrammar.exact
  | replyNameValueArray => exact (exactFrom_replyNameValueArrayGrammar sign).exact

/-- A marker byte, and then a parser that begins with one of `T`. -/
theorem opens_charLit_bind {α : Type} {c : UInt8} {f : UInt8 → Parser UInt8 α} {T : Set UInt8}
    (hf : ∀ a, FirstIn T (f a)) : Opens ({c} ×ˢ T) (charLit c >>= f) := by
  apply (opens_satisfy_bind hf).mono
  rintro ⟨a, b⟩ ⟨ha, hb⟩
  exact ⟨of_decide_eq_true ha, hb⟩

theorem parser_opens (sign : CharSign) (g : MessageGrammar) :
    Opens (g.first ×ˢ g.second) (g.parser sign) := by
  cases g with
  | versionIdentification =>
      apply (opens_satisfy_bind fun _ => (exactFrom_charLit 0x20).first.bind _).mono
      rintro ⟨a, b⟩ ⟨ha, hb⟩
      have hrange := of_decide_eq_true ha
      rw [UInt8.le_iff_toNat_le, UInt8.le_iff_toNat_le] at hrange
      exact ⟨hrange, hb⟩
  | statusNotification =>
      exact opens_charLit_bind fun _ => (exactFrom_charLit notificationStatusInt).first.bind _
  | exceptionNotification =>
      exact opens_charLit_bind fun _ => (exactFrom_charLit notificationExceptionInt).first.bind _
  | reply => exact opens_charLit_bind fun _ => (exactFrom_charLit eom).first.bind _
  | replyInt => exact opens_charLit_bind fun _ => exactFrom_dukDebugInteger.first.bind _
  | replyNameValueArray =>
      refine opens_charLit_bind fun _ => ?_
      exact (exactFrom_replyNameValueGrammar sign).firstIn_many_bind
        fun _ => (exactFrom_charLit eom).first.bind _

theorem parser_consumes (sign : CharSign) (g : MessageGrammar) : Consumes 2 (g.parser sign) :=
  (g.parser_exact sign).consumes_two (g.parser_opens sign)

theorem isReply_iff_of_mem_first {g : MessageGrammar} {c : UInt8} (h : c ∈ g.first) :
    g.isReply = true ↔ c = rep := by
  cases g with
  | versionIdentification =>
      refine iff_of_false Bool.false_ne_true ?_
      rintro rfl
      exact absurd h.1 (by decide)
  | statusNotification | exceptionNotification =>
      obtain rfl := Set.mem_singleton_iff.mp h
      exact iff_of_false Bool.false_ne_true (by decide)
  | reply | replyInt | replyNameValueArray => exact iff_of_true rfl h

/-- The second byte of a message that is not a reply tells what it is. -/
theorem eq_of_mem_second {g g' : MessageGrammar} (hg : g.isReply = false)
    (hg' : g'.isReply = false) {d : UInt8} (h : d ∈ g.second) (h' : d ∈ g'.second) : g = g' := by
  have hbyte : ∀ {k : MessageGrammar}, k.isReply = false → d ∈ k.second →
      d = 0x20 ∧ k = versionIdentification ∨
        d = notificationStatusInt ∧ k = statusNotification ∨
        d = notificationExceptionInt ∧ k = exceptionNotification := by
    intro k hk hd
    cases k with
    | versionIdentification => exact Or.inl ⟨hd, rfl⟩
    | statusNotification => exact Or.inr (Or.inl ⟨hd, rfl⟩)
    | exceptionNotification => exact Or.inr (Or.inr ⟨hd, rfl⟩)
    | reply | replyInt | replyNameValueArray => cases hk
  obtain ⟨hd, rfl⟩ | ⟨hd, rfl⟩ | ⟨hd, rfl⟩ := hbyte hg h <;>
    obtain ⟨hd', rfl⟩ | ⟨hd', rfl⟩ | ⟨hd', rfl⟩ := hbyte hg' h' <;>
    first | rfl | exact absurd (hd.symm.trans hd') (by decide)

theorem not_mem_intFirst_of_mem_strFirst {d : UInt8} (h : d ∈ strFirst) : d ∉ intFirst := by
  simp only [strFirst, intFirst, Set.mem_ofPred_eq] at h ⊢
  omega

/-- Two kinds of replies have only the end of the message as their second byte in common. -/
theorem eq_eom_of_mem_second {g g' : MessageGrammar} (hne : g ≠ g') (hg : g.isReply = true)
    (hg' : g'.isReply = true) {d : UInt8} (h : d ∈ g.second) (h' : d ∈ g'.second) : d = eom := by
  cases g with
  | reply => exact h
  | replyInt =>
      cases g' with
      | reply => exact h'
      | replyNameValueArray =>
          rcases h' with hname | hend
          · exact absurd h (not_mem_intFirst_of_mem_strFirst hname)
          · exact hend
      | replyInt => exact absurd rfl hne
      | versionIdentification | statusNotification | exceptionNotification => cases hg'
  | replyNameValueArray =>
      rcases h with hname | hend
      · cases g' with
        | reply => exact h'
        | replyInt => exact absurd h' (not_mem_intFirst_of_mem_strFirst hname)
        | replyNameValueArray => exact absurd rfl hne
        | versionIdentification | statusNotification | exceptionNotification => cases hg'
      · exact hend
  | versionIdentification | statusNotification | exceptionNotification => cases hg

/-- For every one of the message grammars: what it consumes of a byte string it consumes of
every extension, with the same value, and it accepts no proper initial part of that. A byte
string that two of them accept is a reply and begins with the empty reply, which the grammars
of the empty reply and of the name/value pairs accept. -/
theorem messageGrammars_prefixCode (sign : CharSign) :
    (∀ g : MessageGrammar, PrefixCode (g.parser sign)) ∧
    (∀ g g' : MessageGrammar, g ≠ g' → ∀ s, Accepts (g.parser sign) s →
      Accepts (g'.parser sign) s →
        g.isReply = true ∧ g'.isReply = true ∧ [rep, eom] <+: s) ∧
    ∀ t, replyGrammar ([rep, eom] ++ t) = some (⟨[]⟩, t) ∧
      replyNameValueArrayGrammar sign ([rep, eom] ++ t) = some (⟨[]⟩, t) := by
  refine ⟨fun g => (g.parser_exact sign).prefixCode, ?_, ?_⟩
  · intro g g' hne s hs hs'
    obtain ⟨c, d, m, rfl, hc, hd⟩ := g.parser_opens sign s hs
    obtain ⟨c', d', m', heq, hc', hd'⟩ := g'.parser_opens sign _ hs'
    obtain ⟨rfl, hrest⟩ := List.cons.inj heq
    obtain ⟨rfl, _⟩ := List.cons.inj hrest
    have hreply : g.isReply = g'.isReply := by
      rw [Bool.eq_iff_iff, isReply_iff_of_mem_first hc, isReply_iff_of_mem_first hc']
    cases hg : g.isReply with
    | false => exact absurd (eq_of_mem_second hg (hreply.symm.trans hg) hd hd') hne
    | true =>
        have hg' := hreply.symm.trans hg
        obtain rfl := (isReply_iff_of_mem_first hc).mp hg
        obtain rfl := eq_eom_of_mem_second hne hg hg' hd hd'
        exact ⟨rfl, hg', List.prefix_append [rep, eom] m⟩
  · intro t
    have hrep : Reads (charLit rep) [rep] rep := reads_satisfy (by decide)
    have heom : Reads (charLit eom) [eom] eom := reads_satisfy (by decide)
    have harray : Reads (replyNameValueArrayGrammar sign) [rep, eom] ⟨[]⟩ :=
      hrep.bind (reads_many_bind (exactFrom_replyNameValueGrammar sign) .nil
        eom_not_mem_strFirst heom.bind_pure)
    exact ⟨hrep.bind heom.bind_pure t, harray t⟩

end MessageGrammar

end Debugger

end UnifyFramework
