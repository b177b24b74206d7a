import AgentGov.Payloads
import AgentGov.Receipts.Heads

/-!
# What a signature covers

A signing input begins with the domain of a kind of document and of a version of signatures. No
domain is the beginning of another, so the input tells apart the kind and the version; what follows
is the canonical document, or its SHA-512, and tells apart the body, the algorithm and the key
(`src/src/agentgov/receipts/schema.py`, lines 105–123 and 385–403; `src/src/agentgov/core.py`,
lines 2009–2056).

## Main definitions

* `AgentGov.Receipts.Kind`: the kinds of documents that are signed.
* `AgentGov.Receipts.Body`: what a document states.

## Main results

* `AgentGov.Receipts.append_domain`: no domain is the beginning of another.
* `AgentGov.Receipts.same_of_canonicalBytes`: canonical documents are told apart.
* `AgentGov.Receipts.told_apart`: entries are told apart by their payloads, and documents by their
  signing inputs.
-/

open Foundation

namespace AgentGov.Receipts

/-! ### Domains -/

/-- The kinds of documents that are signed: those of ARC1, and a ledger's checkpoint statement. -/
inductive Kind
  | receipt
  | delivery
  | attestation
  | checkpoint
  | cosignature
  | transition
  | statement
deriving DecidableEq

namespace Kind

/-- `RECEIPT_DOMAIN` and the others, and `_STATEMENT_DOMAIN`. -/
def domain : Kind → List Byte
  | receipt => (txt "ARC1/receipt/v1\n").ascii
  | delivery => (txt "ARC1/delivery/v1\n").ascii
  | attestation => (txt "ARC1/attestation/v1\n").ascii
  | checkpoint => Checkpoint.domain
  | cosignature => Cosignature.domain
  | transition => (txt "ARC1/transition/v1\n").ascii
  | statement => (txt "agentgov/checkpoint/v1\n").ascii

/-- `_DOMAIN_V2`, and the version 2 domain of a statement. -/
def secondDomain : Kind → List Byte
  | receipt => (txt "ARC1/receipt/v2\n").ascii
  | delivery => (txt "ARC1/delivery/v2\n").ascii
  | attestation => (txt "ARC1/attestation/v2\n").ascii
  | checkpoint => (txt "ARC1/checkpoint/v2\n").ascii
  | cosignature => (txt "ARC1/cosignature/v2\n").ascii
  | transition => (txt "ARC1/transition/v2\n").ascii
  | statement => (txt "agentgov/checkpoint/v2\n").ascii

theorem domainV2_domain (k : Kind) : domainV2 k.domain = .ok k.secondDomain := by
  cases k <;> decide

theorem domain_injective : Function.Injective domain := by
  intro k l h
  revert h
  cases k <;> cases l <;> decide

theorem secondDomain_injective : Function.Injective secondDomain := by
  intro k l h
  revert h
  cases k <;> cases l <;> decide

theorem domain_ne_secondDomain (k l : Kind) : k.domain ≠ l.secondDomain := by
  cases k <;> cases l <;> decide

end Kind

/-- Whether bytes are one line: they end at the only line end among them. -/
def IsLine (d : List Byte) : Prop := ∃ p, (10 : Byte) ∉ p ∧ d = p ++ [10]

theorem isLine_of_dropLast {d : List Byte} (h : (10 : Byte) ∉ d.dropLast ∧ d.getLast? = some 10) :
    IsLine d := by
  obtain ⟨p, rfl⟩ := List.getLast?_eq_some_iff.mp h.2
  exact ⟨p, by simpa using h.1, rfl⟩

theorem isLine_domain (k : Kind) : IsLine k.domain :=
  isLine_of_dropLast (by cases k <;> decide)

theorem isLine_secondDomain (k : Kind) : IsLine k.secondDomain :=
  isLine_of_dropLast (by cases k <;> decide)

/-- A first line is told apart from what follows. -/
theorem append_domain {d d' x y : List Byte} (hd : IsLine d) (hd' : IsLine d')
    (h : d ++ x = d' ++ y) : d = d' ∧ x = y := by
  obtain ⟨p, hp, rfl⟩ := hd
  obtain ⟨q, hq, rfl⟩ := hd'
  rw [List.append_assoc, List.append_assoc] at h
  suffices hsame : p = q ∧ x = y by
    exact ⟨by rw [hsame.1], hsame.2⟩
  induction p generalizing q with
  | nil =>
    cases q with
    | nil => simpa using h
    | cons b q =>
      simp only [List.nil_append, List.cons_append, List.cons.injEq] at h
      exact absurd (h.1 ▸ List.mem_cons_self) hq
  | cons a p ih =>
    cases q with
    | nil =>
      simp only [List.nil_append, List.cons_append, List.cons.injEq] at h
      exact absurd (h.1 ▸ List.mem_cons_self) hp
    | cons b q =>
      simp only [List.cons_append, List.cons.injEq] at h
      obtain ⟨hpq, hxy⟩ := ih (fun hm => hp (List.mem_cons_of_mem _ hm)) q
        (fun hm => hq (List.mem_cons_of_mem _ hm)) h.2
      exact ⟨by rw [h.1, hpq], hxy⟩

/-! ### Documents -/

/-- What a document states, a dict of JSON values: everything but its signature. -/
structure Body where
  members : List (Text × Json)
  nodup : (members.map Prod.fst).Nodup
  unsigned : txt "sig" ∉ members.map Prod.fst

/-- A member, its value with the keys of every object in order. -/
def orderedMember (f : Text × Json) : Text × Json := (f.1, ordered f.2)

/-- Bodies with the same members, whatever the order of keys. -/
def Body.Same (b b' : Body) : Prop :=
  (b.members.map orderedMember).Perm (b'.members.map orderedMember)

/-- The header a signature is reduced to where it is signed. -/
def headerOf (alg keyId : Text) (version : ℕ) : Json :=
  .obj ([(txt "alg", .str alg), (txt "key_id", .str keyId)] ++
    if version = 2 then [(txt "sv", .int 2)] else [])

/-- The document that is signed. -/
def signedDocument (members : List (Text × Json)) (alg keyId : Text) (version : ℕ) : Json :=
  .obj (members ++ [(txt "sig", headerOf alg keyId version)])

/-- A signing input is a domain and the document, or its digest. -/
theorem signingInput_eq_ok {k : Kind} {members : List (Text × Json)} {alg keyId : Text}
    {version : ℕ} {bs : List Byte}
    (h : signingInput k.domain members alg keyId version = .ok bs) :
    ∃ cs, canonicalBytes (signedDocument members alg keyId version) = .ok cs ∧
      (version = 1 ∧ bs = k.domain ++ cs ∨ version = 2 ∧ bs = k.secondDomain ++ sha512 cs) := by
  rw [signingInput] at h
  split_ifs at h with hone htwo
  · obtain ⟨cs, hcs, hbs⟩ := bind_eq_ok.mp h
    exact ⟨cs, by rw [signedDocument, headerOf, hone]; exact hcs,
      Or.inl ⟨hone, (Except.ok.inj hbs).symm⟩⟩
  · obtain ⟨stem, hstem, hrest⟩ := bind_eq_ok.mp h
    rw [Kind.domainV2_domain] at hstem
    obtain rfl := Except.ok.inj hstem
    obtain ⟨cs, hcs, hbs⟩ := bind_eq_ok.mp hrest
    exact ⟨cs, by rw [signedDocument, headerOf, htwo]; exact hcs,
      Or.inr ⟨htwo, (Except.ok.inj hbs).symm⟩⟩

/-! ### Canonical documents are told apart -/

theorem perm_insertMember (f : Text × Json) (gs : List (Text × Json)) :
    (insertMember f gs).Perm (f :: gs) := by
  induction gs with
  | nil => exact List.Perm.refl _
  | cons g gs ih =>
    rw [insertMember]
    split_ifs
    · exact List.Perm.refl _
    · exact (ih.cons g).trans (List.Perm.swap f g gs)

/-- Members in order are the same members. -/
theorem perm_orderedMembers (fs : List (Text × Json)) :
    (orderedMembers fs).Perm (fs.map orderedMember) := by
  induction fs with
  | nil => exact List.Perm.refl _
  | cons f fs ih => exact (perm_insertMember _ _).trans (ih.cons _)

/-- Values of the same bytes are the same, whatever the order of keys. -/
theorem ordered_of_canonicalBytes {v w : Json} {bs : List Byte} (hv : canonicalBytes v = .ok bs)
    (hw : canonicalBytes w = .ok bs) : ordered v = ordered w :=
  Json.dump_injective
    (Text.utf8_injective (canonicalBytes_eq_ok hv) (canonicalBytes_eq_ok hw))

theorem ordered_headerOf (alg keyId : Text) (version : ℕ) :
    ordered (headerOf alg keyId version) = headerOf alg keyId version := by
  have hkeys : utf16Order (txt "alg") (txt "key_id") = true ∧
      utf16Order (txt "key_id") (txt "sv") = true := by decide
  rw [headerOf]
  split_ifs <;> simp [ordered, orderedMembers, insertMember, hkeys]

theorem headerOf_inj {alg alg' keyId keyId' : Text} {version version' : ℕ}
    (h : headerOf alg keyId version = headerOf alg' keyId' version') :
    alg = alg' ∧ keyId = keyId' := by
  rw [headerOf, headerOf, Json.obj.injEq] at h
  simp only [List.cons_append, List.nil_append, List.cons.injEq, Prod.mk.injEq, Json.str.injEq,
    true_and] at h
  exact ⟨h.1, h.2.1⟩

/-- Documents of the same bytes state the same, under the same algorithm and key. -/
theorem same_of_canonicalBytes {b b' : Body} {alg alg' keyId keyId' : Text} {version version' : ℕ}
    {cs : List Byte}
    (h : canonicalBytes (signedDocument b.members alg keyId version) = .ok cs)
    (h' : canonicalBytes (signedDocument b'.members alg' keyId' version') = .ok cs) :
    b.Same b' ∧ alg = alg' ∧ keyId = keyId' := by
  have hordered := ordered_of_canonicalBytes h h'
  simp only [signedDocument, ordered, Json.obj.injEq] at hordered
  have hperm := perm_orderedMembers (b.members ++ [(txt "sig", headerOf alg keyId version)])
  rw [hordered] at hperm
  replace hperm := hperm.symm.trans (perm_orderedMembers _)
  simp only [List.map_append, List.map_cons, List.map_nil] at hperm
  have hsig : orderedMember (txt "sig", headerOf alg keyId version) =
      orderedMember (txt "sig", headerOf alg' keyId' version') := by
    have hmem := hperm.subset (List.mem_append_right _ List.mem_cons_self)
    rcases List.mem_append.mp hmem with hmem | hmem
    · -- a body holds no signature
      obtain ⟨f, hf, heq⟩ := List.mem_map.mp hmem
      have hkey : f.1 = txt "sig" := congrArg Prod.fst heq
      exact absurd (hkey ▸ List.mem_map_of_mem hf) b'.unsigned
    · exact List.mem_singleton.mp hmem
  have hheader := congrArg Prod.snd hsig
  simp only [orderedMember, ordered_headerOf] at hheader
  rw [hsig] at hperm
  exact ⟨(List.perm_append_right_iff _).mp hperm, headerOf_inj hheader⟩

/-- Signing inputs tell apart what they are of, where SHA-512 tells apart the documents. -/
theorem same_of_signingInput {hashed : Set (List Byte)} (hinj : hashed.InjOn sha512) {k k' : Kind}
    {b b' : Body} {alg alg' keyId keyId' : Text} {version version' : ℕ} {bs : List Byte}
    (h : signingInput k.domain b.members alg keyId version = .ok bs)
    (h' : signingInput k'.domain b'.members alg' keyId' version' = .ok bs)
    (hmem : ∀ cs, canonicalBytes (signedDocument b.members alg keyId version) = .ok cs →
      cs ∈ hashed)
    (hmem' : ∀ cs, canonicalBytes (signedDocument b'.members alg' keyId' version') = .ok cs →
      cs ∈ hashed) :
    k = k' ∧ b.Same b' ∧ alg = alg' ∧ keyId = keyId' ∧ version = version' := by
  obtain ⟨cs, hcs, hbs⟩ := signingInput_eq_ok h
  obtain ⟨cs', hcs', hbs'⟩ := signingInput_eq_ok h'
  rcases hbs with ⟨hv, rfl⟩ | ⟨hv, rfl⟩ <;> rcases hbs' with ⟨hv', heq⟩ | ⟨hv', heq⟩
  · obtain ⟨hk, rfl⟩ := append_domain (isLine_domain k) (isLine_domain k') heq
    obtain ⟨hb, halg, hkey⟩ := same_of_canonicalBytes hcs hcs'
    exact ⟨Kind.domain_injective hk, hb, halg, hkey, hv.trans hv'.symm⟩
  · obtain ⟨hk, -⟩ := append_domain (isLine_domain k) (isLine_secondDomain k') heq
    exact absurd hk (Kind.domain_ne_secondDomain k k')
  · obtain ⟨hk, -⟩ := append_domain (isLine_secondDomain k) (isLine_domain k') heq
    exact absurd hk.symm (Kind.domain_ne_secondDomain k' k)
  · obtain ⟨hk, hdigest⟩ := append_domain (isLine_secondDomain k) (isLine_secondDomain k') heq
    obtain rfl := hinj (hmem cs hcs) (hmem' cs' hcs') hdigest
    obtain ⟨hb, halg, hkey⟩ := same_of_canonicalBytes hcs hcs'
    exact ⟨Kind.secondDomain_injective hk, hb, halg, hkey, hv.trans hv'.symm⟩

/-- **Nothing signed or chained is moved between documents.** Entries of one payload are of one
version and agree in what it covers; and signing inputs are of one kind, body, algorithm, key and
version, where SHA-512 tells the documents apart. -/
theorem told_apart {hashed : Set (List Byte)} (hinj : hashed.InjOn sha512) :
    (∀ (e e' : LedgerEntry) (bs : List Byte), hashPayload e = .ok bs → hashPayload e' = .ok bs →
      SamePayloadFields e e') ∧
    ∀ (k k' : Kind) (b b' : Body) (alg alg' keyId keyId' : Text) (version version' : ℕ)
      (bs : List Byte),
      signingInput k.domain b.members alg keyId version = .ok bs →
      signingInput k'.domain b'.members alg' keyId' version' = .ok bs →
      (∀ cs, canonicalBytes (signedDocument b.members alg keyId version) = .ok cs →
        cs ∈ hashed) →
      (∀ cs, canonicalBytes (signedDocument b'.members alg' keyId' version') = .ok cs →
        cs ∈ hashed) →
      k = k' ∧ b.Same b' ∧ alg = alg' ∧ keyId = keyId' ∧ version = version' :=
  ⟨fun _ _ _ h h' => same_of_hashPayload h h',
    fun _ _ _ _ _ _ _ _ _ _ _ h h' hmem hmem' => same_of_signingInput hinj h h' hmem hmem'⟩

/-- A body of two members, in one order or the other. -/
def sampleBody (first : Bool) : Body where
  members :=
    if first then [(txt "a", .int 1), (txt "b", .str (txt "x"))]
    else [(txt "b", .str (txt "x")), (txt "a", .int 1)]
  nodup := by cases first <;> decide
  unsigned := by cases first <;> decide

/-- What is signed of it. -/
def sampleSigned : List Byte :=
  (txt "\x7b\"a\":1,\"b\":\"x\",\"sig\":\x7b\"alg\":\"ed25519\",\"key_id\":\"k\",\"sv\":2\x7d\x7d").ascii

theorem canonicalBytes_sampleBody (first : Bool) :
    canonicalBytes (signedDocument (sampleBody first).members (txt "ed25519") (txt "k") 2) =
      .ok sampleSigned := by
  cases first <;> decide +kernel

theorem signingInput_sampleBody (first : Bool) :
    signingInput Kind.receipt.domain (sampleBody first).members (txt "ed25519") (txt "k") 2 =
      .ok (Kind.receipt.secondDomain ++ sha512 sampleSigned) := by
  rw [signingInput, if_neg (by decide), if_pos rfl, Kind.domainV2_domain]
  change (do
    let bs ← canonicalBytes (signedDocument (sampleBody first).members (txt "ed25519") (txt "k") 2)
    return Kind.receipt.secondDomain ++ sha512 bs) = _
  rw [canonicalBytes_sampleBody]
  rfl

/-- Two entries of one payload, their memos written alike; and two bodies of one signing input,
their members in another order. -/
theorem told_apart_alike :
    SamePayloadFields (oldEntry none [0xD83D, 0xDE00]) (oldEntry none [0x1F600]) ∧
      (sampleBody true).Same (sampleBody false) := by
  have htold := told_apart (Set.injOn_singleton sha512 sampleSigned)
  have hhashed : ∀ first cs, canonicalBytes (signedDocument (sampleBody first).members
      (txt "ed25519") (txt "k") 2) = .ok cs → cs ∈ ({sampleSigned} : Set (List Byte)) := by
    intro first cs hcs
    rw [canonicalBytes_sampleBody] at hcs
    exact (Except.ok.inj hcs).symm
  refine ⟨htold.1 _ _ _ (hashPayload_oldEntry _ _)
    (hashPayload_surrogates ▸ hashPayload_oldEntry _ _), ?_⟩
  exact (htold.2 _ _ _ _ _ _ _ _ _ _ _ (signingInput_sampleBody true)
    (signingInput_sampleBody false) (hhashed true) (hhashed false)).2.1

end AgentGov.Receipts
