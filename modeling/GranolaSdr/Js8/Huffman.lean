import GranolaSdr.Js8.Message
import GranolaSdr.Lib.PrefixCode

/-!
# The Huffman code of the old-format data frames

The table of `huffDecode` is a prefix code, and a full one: every string of bits is a sequence of
codewords followed by the beginning of one.

## Main definitions

* `huffEncode`: the concatenated codes of a text.

## Main results

* `decodes_huffDecode`: `huffDecode` takes codewords off the front of its input until none fits;
* `huffDecode_inverts`: it inverts `huffEncode`, and stops only within a codeword at the end.
-/

namespace GranolaSdr.Js8

/-- The table with its codes as bits. -/
def huffTable : List (Char × List Bool) := kHuffTable.map fun e => (e.1, codeBits e.2)

/-- The code of a character. -/
def huffCode (ch : Char) : List Bool := (huffTable.lookup ch).getD []

/-- The concatenated codes of a text. -/
def huffEncode (text : List Char) : List Bool := text.flatMap huffCode

theorem prefixFree_huffTable : PrefixCode.PrefixFree huffTable := by decide +kernel

theorem full_huffTable : PrefixCode.Full huffTable := by decide +kernel

theorem codes_ne_nil : ∀ e ∈ huffTable, e.2 ≠ [] := by decide +kernel

/-- No character stands twice in the table. -/
theorem huffCode_of_mem : ∀ e ∈ huffTable, huffCode e.1 = e.2 := by decide +kernel

theorem huffDecode_of_find?_eq_some {bits : List Bool} {e : Char × String}
    (h : kHuffTable.find? (fun e => (codeBits e.2).isPrefixOf bits) = some e) :
    huffDecode bits = e.1 :: huffDecode (bits.drop (codeBits e.2).length) := by
  rw [huffDecode]
  split
  · next e' h' =>
    obtain rfl := Option.some.inj (h'.symm.trans h)
    rfl
  · next h' => cases h'.symm.trans h

theorem huffDecode_of_find?_eq_none {bits : List Bool}
    (h : kHuffTable.find? (fun e => (codeBits e.2).isPrefixOf bits) = none) :
    huffDecode bits = [] := by
  rw [huffDecode]
  split
  · next e' h' => cases h'.symm.trans h
  · rfl

/-- `huffDecode` takes codewords off the front of its input until none fits. -/
theorem decodes_huffDecode (bits : List Bool) :
    ∃ rest, PrefixCode.Decodes huffTable bits (huffDecode bits) rest := by
  induction bits using huffDecode.induct with
  | case1 bits e hfind ih =>
    obtain ⟨rest, hrest⟩ := ih
    have hmem : (e.1, codeBits e.2) ∈ huffTable :=
      List.mem_map_of_mem (List.mem_of_find?_eq_some hfind)
    have hpre : codeBits e.2 <+: bits :=
      List.isPrefixOf_iff_prefix.1 (by simpa using List.find?_some hfind)
    -- the entry found is the one read, and the rest of the bits is what the call is made on
    have hsplit : bits = codeBits e.2 ++ bits.drop (codeBits e.2).length :=
      (List.prefix_iff_eq_append.1 hpre).symm
    have hread := PrefixCode.Decodes.read hmem hrest
    rw [← hsplit, ← huffDecode_of_find?_eq_some hfind] at hread
    exact ⟨rest, hread⟩
  | case2 bits hfind =>
    refine ⟨bits, ?_⟩
    rw [huffDecode_of_find?_eq_none hfind]
    refine PrefixCode.Decodes.stop fun f hf hpre => ?_
    obtain ⟨e, he, rfl⟩ := List.mem_map.1 hf
    have hmiss := List.find?_eq_none.1 hfind e he
    exact hmiss (List.isPrefixOf_iff_prefix.2 hpre)

/-- The codes of the symbols of some entries are the codes of the entries. -/
theorem huffEncode_map {entries : List (Char × List Bool)}
    (hentries : ∀ e ∈ entries, e ∈ huffTable) :
    huffEncode (entries.map Prod.fst) = entries.flatMap Prod.snd := by
  rw [huffEncode, List.flatMap_map]
  exact List.flatMap_congr fun e he => huffCode_of_mem e (hentries e he)

/-- Every text over the alphabet of the table is the text of some entries. -/
theorem exists_entries {text : List Char} (h : ∀ ch ∈ text, ch ∈ kHuffTable.map Prod.fst) :
    ∃ entries : List (Char × List Bool), (∀ e ∈ entries, e ∈ huffTable) ∧
      entries.map Prod.fst = text := by
  refine ⟨text.map fun ch => (ch, huffCode ch), fun e he => ?_, ?_⟩
  · obtain ⟨ch, hch, rfl⟩ := List.mem_map.1 he
    obtain ⟨f, hf, rfl⟩ := List.mem_map.1 (h ch hch)
    have hmem : (f.1, codeBits f.2) ∈ huffTable := List.mem_map_of_mem hf
    rwa [huffCode_of_mem _ hmem]
  · rw [List.map_map]
    exact List.map_id' text

/-- `huffDecode` returns every text over the alphabet of the table from its codes. On any bits, the
codes of what it returns are a prefix, and the rest is a proper prefix of a code. -/
theorem huffDecode_inverts :
    (∀ text : List Char, (∀ ch ∈ text, ch ∈ kHuffTable.map Prod.fst) →
      huffDecode (huffEncode text) = text) ∧
    ∀ bits : List Bool, ∃ rest, bits = huffEncode (huffDecode bits) ++ rest ∧
      ∃ e ∈ kHuffTable, rest <+: codeBits e.2 ∧ rest ≠ codeBits e.2 := by
  constructor
  · intro text htext
    -- the encoder writes one entry a character, and the table is prefix free
    obtain ⟨entries, hentries, rfl⟩ := exists_entries htext
    obtain ⟨rest, hdecodes⟩ := decodes_huffDecode (huffEncode (entries.map Prod.fst))
    exact hdecodes.eq_of_prefixFree prefixFree_huffTable codes_ne_nil hentries
      (huffEncode_map hentries)
  · intro bits
    obtain ⟨rest, hdecodes⟩ := decodes_huffDecode bits
    -- what was consumed is the encoding of the text; the table is full, so the rest starts a code
    obtain ⟨entries, hentries, hmap, hbits⟩ := hdecodes.exists_entries
    obtain ⟨f, hf, hpre, hproper⟩ :=
      hdecodes.exists_rest_prefix full_huffTable (by decide)
    obtain ⟨e, he, rfl⟩ := List.mem_map.1 hf
    refine ⟨rest, ?_, e, he, hpre, hproper⟩
    rw [← hmap, huffEncode_map hentries]
    exact hbits

/-- `K1ABC`, and six bits that hold a blank and the beginning of a longer code. -/
theorem huffDecode_inverts_k1abc :
    huffDecode (huffEncode "K1ABC".toList) = "K1ABC".toList ∧
      ∃ rest, [false, true, true, true, false, false] =
        huffEncode (huffDecode [false, true, true, true, false, false]) ++ rest ∧
          ∃ e ∈ kHuffTable, rest <+: codeBits e.2 ∧ rest ≠ codeBits e.2 :=
  have hmem : "K1ABC".toList ⊆ kHuffTable.map Prod.fst := by decide +kernel
  ⟨huffDecode_inverts.1 "K1ABC".toList fun _ hch => hmem hch, huffDecode_inverts.2 _⟩

end GranolaSdr.Js8
