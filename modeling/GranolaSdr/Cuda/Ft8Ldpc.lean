import GranolaSdr.Cuda.Ldpc

/-!
# The LDPC code of FT8

The tables of the FT8 sum-product decoder, the generator that the FT8 ordered-statistics decoder
builds from packed parity rows, and their agreement: both describe one code of length 174 with 91
bits of message and checksum, which stand in front of the parity bits.

## Main definitions

* `k_check_var_j`, `k_check_deg`, `k_var_adj`, `ft8`: the tables;
* `build_generator`: the generator;
* `ft8_osd_decode`: the ordered-statistics decoder.

## Main results

* `agree`: the tables agree with the generator;
* `checks_iff_mem_span`: what follows for the two decoders.
-/

namespace GranolaSdr.Cuda.Ldpc.Ft8

open Osd

def k_check_var_j : List (List ℤ) :=
  [[3, 30, 58, 90, 91, 95, 152], [4, 31, 59, 92, 114, 145, -1], [5, 23, 60, 93, 121, 150, -1],
   [6, 32, 61, 94, 95, 142, -1], [7, 24, 62, 82, 92, 95, 147], [5, 31, 63, 96, 125, 137, -1],
   [4, 33, 64, 77, 97, 106, 153], [8, 34, 65, 98, 138, 145, -1], [9, 35, 66, 99, 106, 125, -1],
   [10, 36, 66, 86, 100, 138, 157], [11, 37, 67, 101, 104, 154, -1],
   [12, 38, 68, 102, 148, 161, -1], [7, 39, 69, 81, 103, 113, 144],
   [13, 40, 70, 87, 101, 122, 155], [14, 41, 58, 105, 122, 158, -1],
   [0, 32, 71, 105, 106, 156, -1], [15, 42, 72, 107, 140, 159, -1],
   [16, 36, 73, 80, 108, 130, 153], [10, 43, 74, 109, 120, 165, -1],
   [44, 54, 63, 110, 129, 160, 172], [7, 45, 70, 111, 118, 165, -1],
   [17, 35, 75, 88, 112, 113, 142], [18, 37, 76, 103, 115, 162, -1],
   [19, 46, 69, 91, 137, 164, -1], [1, 47, 73, 112, 127, 159, -1],
   [20, 44, 77, 82, 116, 120, 150], [21, 46, 57, 117, 126, 163, -1],
   [15, 38, 61, 111, 133, 157, -1], [22, 42, 78, 119, 130, 144, -1],
   [18, 34, 58, 72, 109, 124, 160], [19, 35, 62, 93, 135, 160, -1],
   [13, 30, 78, 97, 131, 163, -1], [2, 43, 79, 123, 126, 168, -1],
   [18, 45, 80, 116, 134, 166, -1], [6, 48, 57, 89, 99, 104, 167],
   [11, 49, 60, 117, 118, 143, -1], [12, 50, 63, 113, 117, 156, -1],
   [23, 51, 75, 128, 147, 148, -1], [24, 52, 68, 89, 100, 129, 155],
   [19, 45, 64, 79, 119, 139, 169], [20, 53, 76, 99, 139, 170, -1],
   [34, 81, 132, 141, 170, 173, -1], [13, 29, 82, 112, 124, 169, -1],
   [3, 28, 67, 119, 133, 172, -1], [0, 3, 51, 56, 85, 135, 151], [25, 50, 55, 90, 121, 136, 167],
   [51, 83, 109, 114, 144, 167, -1], [6, 49, 80, 98, 131, 172, -1],
   [22, 54, 66, 94, 171, 173, -1], [25, 40, 76, 108, 140, 147, -1],
   [1, 26, 40, 60, 61, 114, 132], [26, 39, 55, 123, 124, 125, -1],
   [17, 48, 54, 123, 140, 166, -1], [5, 32, 84, 107, 115, 155, -1],
   [27, 47, 69, 84, 104, 128, 157], [8, 53, 62, 130, 146, 154, -1],
   [21, 52, 67, 108, 120, 173, -1], [2, 12, 47, 77, 94, 122, -1],
   [30, 68, 132, 149, 154, 168, -1], [11, 42, 65, 88, 96, 134, 158],
   [4, 38, 74, 101, 135, 166, -1], [1, 53, 85, 100, 134, 163, -1],
   [14, 55, 86, 107, 118, 170, -1], [9, 43, 81, 90, 110, 143, 148],
   [22, 33, 70, 93, 126, 152, -1], [10, 48, 87, 91, 141, 156, -1],
   [28, 33, 86, 96, 146, 161, -1], [29, 49, 59, 85, 136, 141, 161],
   [9, 52, 65, 83, 111, 127, 164], [21, 56, 84, 92, 139, 158, -1],
   [27, 31, 71, 102, 131, 165, -1], [27, 28, 83, 87, 116, 142, 149],
   [0, 25, 44, 79, 127, 146, -1], [16, 26, 88, 102, 115, 152, -1],
   [50, 56, 97, 162, 164, 171, -1], [20, 36, 72, 137, 151, 168, -1],
   [15, 46, 75, 129, 136, 153, -1], [2, 23, 29, 71, 103, 138, -1],
   [8, 39, 89, 105, 133, 150, -1], [14, 57, 59, 73, 110, 149, 162],
   [17, 41, 78, 143, 145, 151, -1], [24, 37, 64, 98, 121, 159, -1],
   [16, 41, 74, 128, 169, 171, -1]]

def k_check_deg : List ℕ :=
  [7, 6, 6, 6, 7, 6, 7, 6, 6, 7, 6, 6, 7, 7, 6, 6, 6, 7, 6, 7,
   6, 7, 6, 6, 6, 7, 6, 6, 6, 7, 6, 6, 6, 6, 7, 6, 6, 6, 7, 7,
   6, 6, 6, 6, 7, 7, 6, 6, 6, 6, 7, 6, 6, 6, 7, 6, 6, 6, 6, 7,
   6, 6, 6, 7, 6, 6, 6, 7, 7, 6, 6, 7, 6, 6, 6, 6, 6, 6, 6, 7,
   6, 6, 6]

def k_var_adj : List (List (ℕ × ℕ)) :=
  [[(15, 0), (44, 0), (72, 0)], [(24, 0), (50, 0), (61, 0)], [(32, 0), (57, 0), (77, 0)],
   [(0, 0), (43, 0), (44, 1)], [(1, 0), (6, 0), (60, 0)], [(2, 0), (5, 0), (53, 0)],
   [(3, 0), (34, 0), (47, 0)], [(4, 0), (12, 0), (20, 0)], [(7, 0), (55, 0), (78, 0)],
   [(8, 0), (63, 0), (68, 0)], [(9, 0), (18, 0), (65, 0)], [(10, 0), (35, 0), (59, 0)],
   [(11, 0), (36, 0), (57, 1)], [(13, 0), (31, 0), (42, 0)], [(14, 0), (62, 0), (79, 0)],
   [(16, 0), (27, 0), (76, 0)], [(17, 0), (73, 0), (82, 0)], [(21, 0), (52, 0), (80, 0)],
   [(22, 0), (29, 0), (33, 0)], [(23, 0), (30, 0), (39, 0)], [(25, 0), (40, 0), (75, 0)],
   [(26, 0), (56, 0), (69, 0)], [(28, 0), (48, 0), (64, 0)], [(2, 1), (37, 0), (77, 1)],
   [(4, 1), (38, 0), (81, 0)], [(45, 0), (49, 0), (72, 1)], [(50, 1), (51, 0), (73, 1)],
   [(54, 0), (70, 0), (71, 0)], [(43, 1), (66, 0), (71, 1)], [(42, 1), (67, 0), (77, 2)],
   [(0, 1), (31, 1), (58, 0)], [(1, 1), (5, 1), (70, 1)], [(3, 1), (15, 1), (53, 1)],
   [(6, 1), (64, 1), (66, 1)], [(7, 1), (29, 1), (41, 0)], [(8, 1), (21, 1), (30, 1)],
   [(9, 1), (17, 1), (75, 1)], [(10, 1), (22, 1), (81, 1)], [(11, 1), (27, 1), (60, 1)],
   [(12, 1), (51, 1), (78, 1)], [(13, 1), (49, 1), (50, 2)], [(14, 1), (80, 1), (82, 1)],
   [(16, 1), (28, 1), (59, 1)], [(18, 1), (32, 1), (63, 1)], [(19, 0), (25, 1), (72, 2)],
   [(20, 1), (33, 1), (39, 1)], [(23, 1), (26, 1), (76, 1)], [(24, 1), (54, 1), (57, 2)],
   [(34, 1), (52, 1), (65, 1)], [(35, 1), (47, 1), (67, 1)], [(36, 1), (45, 1), (74, 0)],
   [(37, 1), (44, 2), (46, 0)], [(38, 1), (56, 1), (68, 1)], [(40, 1), (55, 1), (61, 1)],
   [(19, 1), (48, 1), (52, 2)], [(45, 2), (51, 2), (62, 1)], [(44, 3), (69, 1), (74, 1)],
   [(26, 2), (34, 2), (79, 1)], [(0, 2), (14, 2), (29, 2)], [(1, 2), (67, 2), (79, 2)],
   [(2, 2), (35, 2), (50, 3)], [(3, 2), (27, 2), (50, 4)], [(4, 2), (30, 2), (55, 2)],
   [(5, 2), (19, 2), (36, 2)], [(6, 2), (39, 2), (81, 2)], [(7, 2), (59, 2), (68, 2)],
   [(8, 2), (9, 2), (48, 2)], [(10, 2), (43, 2), (56, 2)], [(11, 2), (38, 2), (58, 1)],
   [(12, 2), (23, 2), (54, 2)], [(13, 2), (20, 2), (64, 2)], [(15, 2), (70, 2), (77, 3)],
   [(16, 2), (29, 3), (75, 2)], [(17, 2), (24, 2), (79, 3)], [(18, 2), (60, 2), (82, 2)],
   [(21, 2), (37, 2), (76, 2)], [(22, 2), (40, 2), (49, 2)], [(6, 3), (25, 2), (57, 3)],
   [(28, 2), (31, 2), (80, 2)], [(32, 2), (39, 3), (72, 3)], [(17, 3), (33, 2), (47, 2)],
   [(12, 3), (41, 1), (63, 2)], [(4, 3), (25, 3), (42, 2)], [(46, 1), (68, 3), (71, 2)],
   [(53, 2), (54, 3), (69, 2)], [(44, 4), (61, 2), (67, 3)], [(9, 3), (62, 2), (66, 2)],
   [(13, 3), (65, 2), (71, 3)], [(21, 3), (59, 3), (73, 2)], [(34, 3), (38, 3), (78, 2)],
   [(0, 3), (45, 3), (63, 3)], [(0, 4), (23, 3), (65, 3)], [(1, 3), (4, 4), (69, 3)],
   [(2, 3), (30, 3), (64, 3)], [(3, 3), (48, 3), (57, 4)], [(0, 5), (3, 4), (4, 5)],
   [(5, 3), (59, 4), (66, 3)], [(6, 4), (31, 3), (74, 2)], [(7, 3), (47, 3), (81, 3)],
   [(8, 3), (34, 4), (40, 3)], [(9, 4), (38, 4), (61, 3)], [(10, 3), (13, 4), (60, 3)],
   [(11, 3), (70, 3), (73, 3)], [(12, 4), (22, 3), (77, 4)], [(10, 4), (34, 5), (54, 4)],
   [(14, 3), (15, 3), (78, 3)], [(6, 5), (8, 4), (15, 4)], [(16, 3), (53, 3), (62, 3)],
   [(17, 4), (49, 3), (56, 3)], [(18, 3), (29, 4), (46, 2)], [(19, 3), (63, 4), (79, 4)],
   [(20, 3), (27, 3), (68, 4)], [(21, 4), (24, 3), (42, 3)], [(12, 5), (21, 5), (36, 3)],
   [(1, 4), (46, 3), (50, 5)], [(22, 4), (53, 4), (73, 4)], [(25, 4), (33, 3), (71, 4)],
   [(26, 3), (35, 3), (36, 4)], [(20, 4), (35, 4), (62, 4)], [(28, 3), (39, 4), (43, 3)],
   [(18, 4), (25, 5), (56, 4)], [(2, 4), (45, 4), (81, 4)], [(13, 5), (14, 4), (57, 5)],
   [(32, 3), (51, 3), (52, 3)], [(29, 5), (42, 4), (51, 4)], [(5, 4), (8, 5), (51, 5)],
   [(26, 4), (32, 4), (64, 4)], [(24, 4), (68, 5), (72, 4)], [(37, 3), (54, 5), (82, 3)],
   [(19, 4), (38, 5), (76, 3)], [(17, 5), (28, 4), (55, 3)], [(31, 4), (47, 4), (70, 4)],
   [(41, 2), (50, 6), (58, 2)], [(27, 4), (43, 4), (78, 4)], [(33, 4), (59, 5), (61, 4)],
   [(30, 4), (44, 5), (60, 4)], [(45, 5), (67, 4), (76, 4)], [(5, 5), (23, 4), (75, 3)],
   [(7, 4), (9, 5), (77, 5)], [(39, 5), (40, 4), (69, 4)], [(16, 4), (49, 4), (52, 4)],
   [(41, 3), (65, 4), (67, 5)], [(3, 5), (21, 6), (71, 5)], [(35, 5), (63, 5), (80, 3)],
   [(12, 6), (28, 5), (46, 4)], [(1, 5), (7, 5), (80, 4)], [(55, 4), (66, 4), (72, 5)],
   [(4, 6), (37, 4), (49, 5)], [(11, 4), (37, 5), (63, 6)], [(58, 3), (71, 6), (79, 5)],
   [(2, 5), (25, 6), (78, 5)], [(44, 6), (75, 4), (80, 5)], [(0, 6), (64, 5), (73, 5)],
   [(6, 6), (17, 6), (76, 5)], [(10, 5), (55, 5), (58, 4)], [(13, 6), (38, 6), (53, 5)],
   [(15, 5), (36, 5), (65, 5)], [(9, 6), (27, 5), (54, 6)], [(14, 5), (59, 6), (69, 5)],
   [(16, 5), (24, 5), (81, 5)], [(19, 5), (29, 6), (30, 5)], [(11, 5), (66, 5), (67, 6)],
   [(22, 5), (74, 3), (79, 6)], [(26, 5), (31, 5), (61, 5)], [(23, 5), (68, 6), (74, 4)],
   [(18, 5), (20, 5), (70, 5)], [(33, 5), (52, 5), (60, 5)], [(34, 6), (45, 6), (46, 5)],
   [(32, 5), (58, 5), (75, 5)], [(39, 6), (42, 5), (82, 4)], [(40, 5), (41, 4), (62, 5)],
   [(48, 4), (74, 5), (82, 5)], [(19, 6), (43, 5), (47, 5)], [(41, 5), (48, 5), (56, 5)]]

/-- The tables of the sum-product decoder. -/
def ft8 : Tables where
  M := 83
  k_check_var_j := k_check_var_j
  k_check_deg := k_check_deg
  k_var_adj := k_var_adj

/-- The number of bits of message and checksum. -/
abbrev FTX_LDPC_K : ℕ := 91

/-- The parity rows in bytes, the first message bit in the highest place. -/
def kFTX_LDPC_generator : List (List ℕ) :=
  [[0x83, 0x29, 0xce, 0x11, 0xbf, 0x31, 0xea, 0xf5, 0x09, 0xf2, 0x7f, 0xc0],
   [0x76, 0x1c, 0x26, 0x4e, 0x25, 0xc2, 0x59, 0x33, 0x54, 0x93, 0x13, 0x20],
   [0xdc, 0x26, 0x59, 0x02, 0xfb, 0x27, 0x7c, 0x64, 0x10, 0xa1, 0xbd, 0xc0],
   [0x1b, 0x3f, 0x41, 0x78, 0x58, 0xcd, 0x2d, 0xd3, 0x3e, 0xc7, 0xf6, 0x20],
   [0x09, 0xfd, 0xa4, 0xfe, 0xe0, 0x41, 0x95, 0xfd, 0x03, 0x47, 0x83, 0xa0],
   [0x07, 0x7c, 0xcc, 0xc1, 0x1b, 0x88, 0x73, 0xed, 0x5c, 0x3d, 0x48, 0xa0],
   [0x29, 0xb6, 0x2a, 0xfe, 0x3c, 0xa0, 0x36, 0xf4, 0xfe, 0x1a, 0x9d, 0xa0],
   [0x60, 0x54, 0xfa, 0xf5, 0xf3, 0x5d, 0x96, 0xd3, 0xb0, 0xc8, 0xc3, 0xe0],
   [0xe2, 0x07, 0x98, 0xe4, 0x31, 0x0e, 0xed, 0x27, 0x88, 0x4a, 0xe9, 0x00],
   [0x77, 0x5c, 0x9c, 0x08, 0xe8, 0x0e, 0x26, 0xdd, 0xae, 0x56, 0x31, 0x80],
   [0xb0, 0xb8, 0x11, 0x02, 0x8c, 0x2b, 0xf9, 0x97, 0x21, 0x34, 0x87, 0xc0],
   [0x18, 0xa0, 0xc9, 0x23, 0x1f, 0xc6, 0x0a, 0xdf, 0x5c, 0x5e, 0xa3, 0x20],
   [0x76, 0x47, 0x1e, 0x83, 0x02, 0xa0, 0x72, 0x1e, 0x01, 0xb1, 0x2b, 0x80],
   [0xff, 0xbc, 0xcb, 0x80, 0xca, 0x83, 0x41, 0xfa, 0xfb, 0x47, 0xb2, 0xe0],
   [0x66, 0xa7, 0x2a, 0x15, 0x8f, 0x93, 0x25, 0xa2, 0xbf, 0x67, 0x17, 0x00],
   [0xc4, 0x24, 0x36, 0x89, 0xfe, 0x85, 0xb1, 0xc5, 0x13, 0x63, 0xa1, 0x80],
   [0x0d, 0xff, 0x73, 0x94, 0x14, 0xd1, 0xa1, 0xb3, 0x4b, 0x1c, 0x27, 0x00],
   [0x15, 0xb4, 0x88, 0x30, 0x63, 0x6c, 0x8b, 0x99, 0x89, 0x49, 0x72, 0xe0],
   [0x29, 0xa8, 0x9c, 0x0d, 0x3d, 0xe8, 0x1d, 0x66, 0x54, 0x89, 0xb0, 0xe0],
   [0x4f, 0x12, 0x6f, 0x37, 0xfa, 0x51, 0xcb, 0xe6, 0x1b, 0xd6, 0xb9, 0x40],
   [0x99, 0xc4, 0x72, 0x39, 0xd0, 0xd9, 0x7d, 0x3c, 0x84, 0xe0, 0x94, 0x00],
   [0x19, 0x19, 0xb7, 0x51, 0x19, 0x76, 0x56, 0x21, 0xbb, 0x4f, 0x1e, 0x80],
   [0x09, 0xdb, 0x12, 0xd7, 0x31, 0xfa, 0xee, 0x0b, 0x86, 0xdf, 0x6b, 0x80],
   [0x48, 0x8f, 0xc3, 0x3d, 0xf4, 0x3f, 0xbd, 0xee, 0xa4, 0xea, 0xfb, 0x40],
   [0x82, 0x74, 0x23, 0xee, 0x40, 0xb6, 0x75, 0xf7, 0x56, 0xeb, 0x5f, 0xe0],
   [0xab, 0xe1, 0x97, 0xc4, 0x84, 0xcb, 0x74, 0x75, 0x71, 0x44, 0xa9, 0xa0],
   [0x2b, 0x50, 0x0e, 0x4b, 0xc0, 0xec, 0x5a, 0x6d, 0x2b, 0xdb, 0xdd, 0x00],
   [0xc4, 0x74, 0xaa, 0x53, 0xd7, 0x02, 0x18, 0x76, 0x16, 0x69, 0x36, 0x00],
   [0x8e, 0xba, 0x1a, 0x13, 0xdb, 0x33, 0x90, 0xbd, 0x67, 0x18, 0xce, 0xc0],
   [0x75, 0x38, 0x44, 0x67, 0x3a, 0x27, 0x78, 0x2c, 0xc4, 0x20, 0x12, 0xe0],
   [0x06, 0xff, 0x83, 0xa1, 0x45, 0xc3, 0x70, 0x35, 0xa5, 0xc1, 0x26, 0x80],
   [0x3b, 0x37, 0x41, 0x78, 0x58, 0xcc, 0x2d, 0xd3, 0x3e, 0xc3, 0xf6, 0x20],
   [0x9a, 0x4a, 0x5a, 0x28, 0xee, 0x17, 0xca, 0x9c, 0x32, 0x48, 0x42, 0xc0],
   [0xbc, 0x29, 0xf4, 0x65, 0x30, 0x9c, 0x97, 0x7e, 0x89, 0x61, 0x0a, 0x40],
   [0x26, 0x63, 0xae, 0x6d, 0xdf, 0x8b, 0x5c, 0xe2, 0xbb, 0x29, 0x48, 0x80],
   [0x46, 0xf2, 0x31, 0xef, 0xe4, 0x57, 0x03, 0x4c, 0x18, 0x14, 0x41, 0x80],
   [0x3f, 0xb2, 0xce, 0x85, 0xab, 0xe9, 0xb0, 0xc7, 0x2e, 0x06, 0xfb, 0xe0],
   [0xde, 0x87, 0x48, 0x1f, 0x28, 0x2c, 0x15, 0x39, 0x71, 0xa0, 0xa2, 0xe0],
   [0xfc, 0xd7, 0xcc, 0xf2, 0x3c, 0x69, 0xfa, 0x99, 0xbb, 0xa1, 0x41, 0x20],
   [0xf0, 0x26, 0x14, 0x47, 0xe9, 0x49, 0x0c, 0xa8, 0xe4, 0x74, 0xce, 0xc0],
   [0x44, 0x10, 0x11, 0x58, 0x18, 0x19, 0x6f, 0x95, 0xcd, 0xd7, 0x01, 0x20],
   [0x08, 0x8f, 0xc3, 0x1d, 0xf4, 0xbf, 0xbd, 0xe2, 0xa4, 0xea, 0xfb, 0x40],
   [0xb8, 0xfe, 0xf1, 0xb6, 0x30, 0x77, 0x29, 0xfb, 0x0a, 0x07, 0x8c, 0x00],
   [0x5a, 0xfe, 0xa7, 0xac, 0xcc, 0xb7, 0x7b, 0xbc, 0x9d, 0x99, 0xa9, 0x00],
   [0x49, 0xa7, 0x01, 0x6a, 0xc6, 0x53, 0xf6, 0x5e, 0xcd, 0xc9, 0x07, 0x60],
   [0x19, 0x44, 0xd0, 0x85, 0xbe, 0x4e, 0x7d, 0xa8, 0xd6, 0xcc, 0x7d, 0x00],
   [0x25, 0x1f, 0x62, 0xad, 0xc4, 0x03, 0x2f, 0x0e, 0xe7, 0x14, 0x00, 0x20],
   [0x56, 0x47, 0x1f, 0x87, 0x02, 0xa0, 0x72, 0x1e, 0x00, 0xb1, 0x2b, 0x80],
   [0x2b, 0x8e, 0x49, 0x23, 0xf2, 0xdd, 0x51, 0xe2, 0xd5, 0x37, 0xfa, 0x00],
   [0x6b, 0x55, 0x0a, 0x40, 0xa6, 0x6f, 0x47, 0x55, 0xde, 0x95, 0xc2, 0x60],
   [0xa1, 0x8a, 0xd2, 0x8d, 0x4e, 0x27, 0xfe, 0x92, 0xa4, 0xf6, 0xc8, 0x40],
   [0x10, 0xc2, 0xe5, 0x86, 0x38, 0x8c, 0xb8, 0x2a, 0x3d, 0x80, 0x75, 0x80],
   [0xef, 0x34, 0xa4, 0x18, 0x17, 0xee, 0x02, 0x13, 0x3d, 0xb2, 0xeb, 0x00],
   [0x7e, 0x9c, 0x0c, 0x54, 0x32, 0x5a, 0x9c, 0x15, 0x83, 0x6e, 0x00, 0x00],
   [0x36, 0x93, 0xe5, 0x72, 0xd1, 0xfd, 0xe4, 0xcd, 0xf0, 0x79, 0xe8, 0x60],
   [0xbf, 0xb2, 0xce, 0xc5, 0xab, 0xe1, 0xb0, 0xc7, 0x2e, 0x07, 0xfb, 0xe0],
   [0x7e, 0xe1, 0x82, 0x30, 0xc5, 0x83, 0xcc, 0xcc, 0x57, 0xd4, 0xb0, 0x80],
   [0xa0, 0x66, 0xcb, 0x2f, 0xed, 0xaf, 0xc9, 0xf5, 0x26, 0x64, 0x12, 0x60],
   [0xbb, 0x23, 0x72, 0x5a, 0xbc, 0x47, 0xcc, 0x5f, 0x4c, 0xc4, 0xcd, 0x20],
   [0xde, 0xd9, 0xdb, 0xa3, 0xbe, 0xe4, 0x0c, 0x59, 0xb5, 0x60, 0x9b, 0x40],
   [0xd9, 0xa7, 0x01, 0x6a, 0xc6, 0x53, 0xe6, 0xde, 0xcd, 0xc9, 0x03, 0x60],
   [0x9a, 0xd4, 0x6a, 0xed, 0x5f, 0x70, 0x7f, 0x28, 0x0a, 0xb5, 0xfc, 0x40],
   [0xe5, 0x92, 0x1c, 0x77, 0x82, 0x25, 0x87, 0x31, 0x6d, 0x7d, 0x3c, 0x20],
   [0x4f, 0x14, 0xda, 0x82, 0x42, 0xa8, 0xb8, 0x6d, 0xca, 0x73, 0x35, 0x20],
   [0x8b, 0x8b, 0x50, 0x7a, 0xd4, 0x67, 0xd4, 0x44, 0x1d, 0xf7, 0x70, 0xe0],
   [0x22, 0x83, 0x1c, 0x9c, 0xf1, 0x16, 0x94, 0x67, 0xad, 0x04, 0xb6, 0x80],
   [0x21, 0x3b, 0x83, 0x8f, 0xe2, 0xae, 0x54, 0xc3, 0x8e, 0xe7, 0x18, 0x00],
   [0x5d, 0x92, 0x6b, 0x6d, 0xd7, 0x1f, 0x08, 0x51, 0x81, 0xa4, 0xe1, 0x20],
   [0x66, 0xab, 0x79, 0xd4, 0xb2, 0x9e, 0xe6, 0xe6, 0x95, 0x09, 0xe5, 0x60],
   [0x95, 0x81, 0x48, 0x68, 0x2d, 0x74, 0x8a, 0x38, 0xdd, 0x68, 0xba, 0xa0],
   [0xb8, 0xce, 0x02, 0x0c, 0xf0, 0x69, 0xc3, 0x2a, 0x72, 0x3a, 0xb1, 0x40],
   [0xf4, 0x33, 0x1d, 0x6d, 0x46, 0x16, 0x07, 0xe9, 0x57, 0x52, 0x74, 0x60],
   [0x6d, 0xa2, 0x3b, 0xa4, 0x24, 0xb9, 0x59, 0x61, 0x33, 0xcf, 0x9c, 0x80],
   [0xa6, 0x36, 0xbc, 0xbc, 0x7b, 0x30, 0xc5, 0xfb, 0xea, 0xe6, 0x7f, 0xe0],
   [0x5c, 0xb0, 0xd8, 0x6a, 0x07, 0xdf, 0x65, 0x4a, 0x90, 0x89, 0xa2, 0x00],
   [0xf1, 0x1f, 0x10, 0x68, 0x48, 0x78, 0x0f, 0xc9, 0xec, 0xdd, 0x80, 0xa0],
   [0x1f, 0xbb, 0x53, 0x64, 0xfb, 0x8d, 0x2c, 0x9d, 0x73, 0x0d, 0x5b, 0xa0],
   [0xfc, 0xb8, 0x6b, 0xc7, 0x0a, 0x50, 0xc9, 0xd0, 0x2a, 0x5d, 0x03, 0x40],
   [0xa5, 0x34, 0x43, 0x30, 0x29, 0xea, 0xc1, 0x5f, 0x32, 0x2e, 0x34, 0xc0],
   [0xc9, 0x89, 0xd9, 0xc7, 0xc3, 0xd3, 0xb8, 0xc5, 0x5d, 0x75, 0x13, 0x00],
   [0x7b, 0xb3, 0x8b, 0x2f, 0x01, 0x86, 0xd4, 0x66, 0x43, 0xae, 0x96, 0x20],
   [0x26, 0x44, 0xeb, 0xad, 0xeb, 0x44, 0xb9, 0x46, 0x7d, 0x1f, 0x42, 0xc0],
   [0x60, 0x8c, 0xc8, 0x57, 0x59, 0x4b, 0xfb, 0xb5, 0x5d, 0x69, 0x60, 0x00]]

/-- A bit of a parity row. -/
def parityBit (i m : ℕ) : ℕ :=
  ((kFTX_LDPC_generator.getD i []).getD (m >>> 3) 0 >>> (7 - (m &&& 7))) &&& 1

/-- `g_ft8_gen[m][c]` as `build_generator` leaves it. -/
def build_generator (m c : ℕ) : UInt8 :=
  if c < FTX_LDPC_K then if c = m then 1 else 0
  else UInt8.ofNat (parityBit (c - FTX_LDPC_K) m)

/-- The generator in row-major order. -/
def g_ft8_gen (i : ℕ) : UInt8 := build_generator (i / N) (i % N)

def ft8_osd_decode (llr : Fin N → ℚ) (order : ℤ) : Option (Vector Bool N × ℚ) :=
  osd_decode_n174 llr FTX_LDPC_K g_ft8_gen order

/-- A column of the generator, the first row in the lowest bit. -/
def ft8Column (p : Fin N) : BitVec FTX_LDPC_K :=
  if p < FTX_LDPC_K then BitVec.twoPow FTX_LDPC_K p
  else Gf2.ofBools FTX_LDPC_K
    ((List.range FTX_LDPC_K).map fun m => parityBit (p - FTX_LDPC_K) m == 1)

theorem getLsbD_ft8Column (r : Fin FTX_LDPC_K) (p : Fin N) :
    (ft8Column p).getLsbD r = decide (g_ft8_gen (r * N + p) ≠ 0) := by
  have hr := r.isLt
  rw [g_ft8_gen, row_div, row_mod, build_generator, ft8Column]
  split_ifs with hp heq
  · rw [BitVec.getLsbD_twoPow]
    simp [heq]
  · rw [BitVec.getLsbD_twoPow]
    simp [heq]
  · rw [Gf2.getLsbD_ofBools _ hr, List.getD_eq_getElem _ _ (by simp), List.getElem_map,
      List.getElem_range]
    have hbit : parityBit (p - FTX_LDPC_K) r = 0 ∨ parityBit (p - FTX_LDPC_K) r = 1 := by
      rw [parityBit, Nat.and_one_is_mod]
      exact Nat.mod_two_eq_zero_or_one _
    rcases hbit with h | h <;> rw [h] <;> rfl

theorem inverseTest : ft8.InverseTest := by decide +kernel

theorem agree : ft8.Agree g_ft8_gen ft8Column 0 where
  entry := getLsbD_ft8Column
  inverse := inverseTest
  orthogonal := by decide +kernel
  independent := by decide +kernel
  systematic := by decide +kernel
  dim := rfl
  info_le := by decide

/-- A word satisfies all checks exactly when it is in the row space of the generator; the adjacency
of the variables is that of the checks. So what the ordered-statistics decoder returns passes all
checks, the test of the sum-product decoder accepts it unless it is zero, and it is the encoding of
its first 91 bits. -/
theorem checks_iff_mem_span :
    (∀ x : Vector Bool N, (∀ i < 83, ft8.Check i x) ↔
      wordVec x ∈ Submodule.span (ZMod 2) (Set.range (generator FTX_LDPC_K g_ft8_gen).row)) ∧
    ft8.Inverse ∧
    ∀ (llr : Fin N → ℚ) (order : ℤ) (plain174 : Vector Bool N) (dist : ℚ),
      ft8_osd_decode llr order = some (plain174, dist) →
        (∀ i < 83, ft8.Check i plain174) ∧
        (ft8.accepts plain174 ↔ plain174 ≠ Vector.replicate N false) ∧
        wordVec plain174 = ∑ r : Fin FTX_LDPC_K,
          Gf2.bit (plain174.get (Fin.castLE (by decide) r)) • generator FTX_LDPC_K g_ft8_gen r := by
  refine ⟨agree.check_iff, ft8.inverse_of_test inverseTest,
    fun llr order plain174 dist hosd => ?_⟩
  have hmem := (osd_decode_n174_spec llr g_ft8_gen hosd).1
  have hget : ∀ r : Fin FTX_LDPC_K,
      plain174.get (Fin.ofNat N (0 + r)) = plain174.get (Fin.castLE (by decide) r) := by
    intro r
    have hlt : 0 + (r : ℕ) < N := (Nat.zero_add _).trans_lt (r.isLt.trans (by decide))
    exact congrArg plain174.get ((ofNat_eq_mk hlt).trans (Fin.ext (Nat.zero_add _)))
  refine ⟨(agree.check_iff plain174).2 hmem, ?_, ?_⟩
  · rw [agree.accepts_iff, and_iff_left hmem]
  · simp only [← hget]
    exact (agree.mem_span_iff plain174).1 hmem

/-- Values that point to 0 everywhere are decoded to the word of zeros, which the test of the
sum-product decoder does not accept. -/
theorem ft8_osd_decode_zero :
    ft8_osd_decode (fun _ => -1) 0 = some (Vector.replicate N false, 0) ∧
      ft8.accepts (Vector.replicate N false) = false := by
  constructor
  · have hmem : wordVec (Vector.replicate N false) ∈
        Submodule.span (ZMod 2) (Set.range (generator FTX_LDPC_K g_ft8_gen).row) := by
      rw [wordVec_zeros]
      exact Submodule.zero_mem _
    have hosd := agree.osd_decode_n174_codeword (by decide) 0 hmem
    simp only [get_zeros, Bool.false_eq_true, reduceIte] at hosd
    exact hosd
  · exact Bool.eq_false_of_not_eq_true fun h => ((ft8.accepts_iff_check _).1 h).1 rfl

end GranolaSdr.Cuda.Ldpc.Ft8
